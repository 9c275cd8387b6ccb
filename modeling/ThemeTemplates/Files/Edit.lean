import ThemeTemplates.Files.FileSystem

/-! # Changes of a file system

A change that cannot be made leaves the files as they are, apart from directories that were made on
the way.
-/

namespace ThemeTemplates

set_option autoImplicit false

inductive Edit
  /-- Writes a file, with the directories above it. -/
  | write (path : Path) (data : Bytes)
  /-- Makes a directory, with the directories above it. -/
  | makeDirectory (path : Path)
  /-- Takes an entry away with all that lies below it. A link is taken away itself. -/
  | remove (path : Path)
  | rename (source target : Path)
  | symlink (path target : Path)
  deriving DecidableEq, Repr

namespace FileSystem

/-- Puts an entry at a place, or takes away what is there. -/
def set (fs : FileSystem) (place : Place) (e : Option Entry) : FileSystem :=
  { fs with root := fs.root.alter (fun _ => e) place }

/-- Whether a directory can be made, or exists, at a path: the files with that directory, or
nothing. -/
def makeDirectory? (fs : FileSystem) (path : Path) : Option FileSystem :=
  if fs.isDirectory path then some fs
  else
    match fs.place false path with
    | .error _ => none
    | .ok place =>
      match fs.root.at? place with
      | some _ => none
      | none => some (fs.set place (some (.directory [])))

/-- Makes the directories with these names, each below the one before, until one cannot be made. The
first lies below the path `above`. -/
def makeDirectories (fs : FileSystem) (above : Path) : List Bytes → FileSystem
  | [] => fs
  | name :: names =>
    let path := Path.join above name
    match fs.makeDirectory? path with
    | none => fs
    | some fs => makeDirectories fs path names

/-- The path that directories are made below: the root or the working directory. -/
def base (path : Path) : Path := if Path.isAbsolute path then [Path.slash] else []

/-- Makes the directory at a path and those above it. The path is checked before anything is made. A
dot at its end asks for a directory that is there, so that only those above it are made. -/
def makeAll (fs : FileSystem) (path : Path) : FileSystem :=
  if Path.isUsable path then
    fs.makeDirectories (base path)
      (if Path.endsHere path then (Path.steps path).dropLast else Path.steps path)
  else fs

/-- The files with an entry at a path, and with directories above it where there were none. -/
def mount (fs : FileSystem) (path : Path) (e : Entry) : FileSystem :=
  let fs := fs.makeAll path
  match fs.place true path with
  | .error _ => fs
  | .ok place => fs.set place (some e)

/-- Writes a file at a path whose directory exists. -/
def writeFile (fs : FileSystem) (path : Path) (data : Bytes) : FileSystem :=
  match fs.place true path with
  | .error _ => fs
  | .ok place =>
    match fs.root.at? place with
    | some (.directory _) => fs
    | _ => fs.set place (some (.file data))

/-- Whether an entry may take the place of another. -/
def mayReplace (moved : Entry) : Option Entry → Bool
  | none => true
  | some (.directory entries) => moved.isDirectory && entries.isEmpty
  | some _ => !moved.isDirectory

/-- The place of the target of a move. For a directory, slashes at the end of the path do not
count. -/
def targetPlace (fs : FileSystem) (moved : Entry) (target : Path) : Except FileError Place :=
  if moved.isDirectory then fs.placeOf false target (Path.names target) else fs.place false target

/-- Moves the entry at one path to another. A directory does not move below itself. -/
def move (fs : FileSystem) (source target : Path) : FileSystem :=
  match fs.place false source with
  | .error _ => fs
  | .ok s =>
    match fs.root.at? s with
    | none => fs
    | some e =>
      match fs.targetPlace e target with
      | .error _ => fs
      | .ok t =>
        if s.isPrefixOf t || !mayReplace e (fs.root.at? t) then fs
        else (fs.set s none).set t (some e)

/-- Takes an entry away. A directory that the path does not name stays, without its entries. -/
def removeEntry (fs : FileSystem) (path : Path) : FileSystem :=
  match fs.place false path with
  | .error _ => fs
  | .ok place => fs.set place (if Path.endsInName path then none else some (.directory []))

/-- Makes a link at a path where nothing is. -/
def makeLink (fs : FileSystem) (path target : Path) : FileSystem :=
  match fs.place false path with
  | .error _ => fs
  | .ok place =>
    match fs.root.at? place with
    | some _ => fs
    | none => fs.set place (some (.link target))

def edit (fs : FileSystem) : Edit → FileSystem
  | .write path data => (fs.makeAll (Path.parent path)).writeFile path data
  | .makeDirectory path => fs.makeAll path
  | .remove path => fs.removeEntry path
  | .rename source target =>
    if Path.endsInName source && Path.endsInName target then fs.move source target else fs
  | .symlink path target => if Path.isUsable target then fs.makeLink path target else fs

end FileSystem

end ThemeTemplates
