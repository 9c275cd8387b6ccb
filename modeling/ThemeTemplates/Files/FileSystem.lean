import ThemeTemplates.Files.Entry

/-! # File systems

A file system has a root directory and a working directory, where relative paths start. A path is
followed component by component; a link on the way is replaced by its target, and at most forty
links are followed. Neither a path nor a name may be too long.

* `FileSystem.place` is the place that a path leads to, `FileSystem.entry` the entry there.
* `FileSystem.read` gives the bytes of a file, `FileSystem.isDirectory` says whether a path leads to
  a directory.
* `FileSystem.walk` lists what lies below a path, and `FileSystem.list` says whether a directory among
  that can be read.
-/

namespace ThemeTemplates

set_option autoImplicit false

/-- The root directory, and the place of the working directory. -/
structure FileSystem where
  root : Entry
  cwd : Place

namespace FileSystem

/-- No files: the root is empty, and the working directory. -/
def empty : FileSystem := ⟨.directory [], []⟩

/-! ## Following a path -/

/-- How many links a path may take. -/
def maxLinks : Nat := 40

/-- The length of the longest name. -/
def maxName : Nat := 255

/-- The place that components lead to from the place of a directory. A link at the very end is
followed if `follow` is set. The last name need not exist; all before it have to. -/
def placeFrom (root : Entry) (follow : Bool) : (links : Nat) → Place → List Bytes →
    Except FileError Place
  | _, place, [] => .ok place
  | links, place, name :: rest =>
    match root.at? place with
    | some (.directory entries) =>
      if name == Path.here then placeFrom root follow links place rest
      else if name == Path.up then placeFrom root follow links place.dropLast rest
      else if maxName < name.length then .error .nameTooLong
      else
        match Table.get? name entries with
        | none => if rest.isEmpty then .ok (place ++ [name]) else .error .notFound
        | some (.link target) =>
          if rest.isEmpty && !follow then .ok (place ++ [name])
          else
            match links with
            | 0 => .error .tooManyLinks
            | links + 1 =>
              placeFrom root follow links (if Path.isAbsolute target then [] else place)
                (Path.components target ++ rest)
        | some _ => placeFrom root follow links (place ++ [name]) rest
    | some _ => .error .notDirectory
    | none => .error .notFound
termination_by links _ components => (links, components.length)

def origin (fs : FileSystem) (path : Path) : Place := if Path.isAbsolute path then [] else fs.cwd

/-- The place that these components of a path lead to. The empty path leads nowhere, and so does one
with a zero byte. The length of a path is checked before it is followed. -/
def placeOf (fs : FileSystem) (follow : Bool) (path : Path) (components : List Bytes) :
    Except FileError Place :=
  if path.isEmpty || path.contains 0 then .error .notFound
  else if Path.maxLength < path.length then .error .nameTooLong
  else placeFrom fs.root follow maxLinks (fs.origin path) components

def place (fs : FileSystem) (follow : Bool) (path : Path) : Except FileError Place :=
  fs.placeOf follow path (Path.components path)

def entry (fs : FileSystem) (follow : Bool) (path : Path) : Except FileError Entry :=
  match fs.place follow path with
  | .error e => .error e
  | .ok place =>
    match fs.root.at? place with
    | some e => .ok e
    | none => .error .notFound

/-! ## Reading -/

/-- Whether a path leads to a directory, links followed. -/
def isDirectory (fs : FileSystem) (path : Path) : Bool :=
  match fs.entry true path with
  | .ok e => e.isDirectory
  | .error _ => false

/-- The bytes of the file that a path leads to, links followed. -/
def read (fs : FileSystem) (path : Path) : Except FileError Bytes :=
  match fs.entry true path with
  | .error e => .error e
  | .ok (.file data) => .ok data
  | .ok (.link _) => .error .tooManyLinks
  | .ok (.directory _) => .error .isDirectory

/-- What lies at a path and below it. A link there is listed as a link, and the directory that it
leads to is walked. -/
def walk (fs : FileSystem) (path : Path) : List (Path × Entry) :=
  match fs.entry false path with
  | .error _ => []
  | .ok (.link target) =>
    (path, .link target) ::
      match fs.entry true path with
      | .ok (.directory entries) => Entry.walkAll path entries
      | _ => []
  | .ok e => e.walk path

/-- Whether the entries of the directory at a path can be listed: the error, if not. -/
def list (fs : FileSystem) (path : Path) : Except FileError Unit :=
  match fs.entry true path with
  | .error e => .error e
  | .ok e => if e.isDirectory then .ok () else .error .notDirectory

/-- The directories among what a path leads to, those that a walk lists as such. -/
def directories (fs : FileSystem) (path : Path) : List Path :=
  ((fs.walk path).filter fun e => e.2.isDirectory).map Prod.fst

/-! ## Watching -/

def pathOf (place : Place) : Path := place.flatMap fun name => Path.slash :: name

/-- A path as it is seen from the root. -/
def absolute (fs : FileSystem) (path : Path) : Path := Path.join (pathOf fs.cwd) path

/-- Whether changes below a directory can be followed. The directory is followed under its absolute
path, which has to be short enough. -/
def isWatchable (fs : FileSystem) (path : Path) : Bool := Path.isUsable (fs.absolute path)

/-- The directories that are followed for what a path leads to. The first one that cannot be ends the
list. -/
def watchable (fs : FileSystem) (path : Path) : List Path :=
  (fs.directories path).takeWhile fs.isWatchable

end FileSystem

end ThemeTemplates
