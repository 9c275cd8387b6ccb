import ThemeTemplates.Files.Path
import ThemeTemplates.Table

/-! # Files and directories

An entry is a file, a symbolic link or a directory of entries, sorted by name. A place is the list
of names that leads from a directory to an entry without following links.

* `Entry.at?` is the entry at a place, `Entry.alter` puts one there or takes it away.
* `Entry.walk` lists an entry and, for a directory, all that lies below it, each directory before
  its entries and these by name. Links are listed and not followed.
-/

namespace ThemeTemplates

set_option autoImplicit false

inductive Entry
  | file (data : Bytes)
  | link (target : Path)
  | directory (entries : List (Bytes × Entry))

/-- Why a path leads nowhere, or to an entry of the wrong sort. -/
inductive FileError
  | notFound
  | notDirectory
  | isDirectory
  | nameTooLong
  | tooManyLinks
  deriving DecidableEq, Repr

/-- The wording of an error, with its number. -/
def FileError.message : FileError → String
  | .notFound => "No such file or directory (os error 2)"
  | .notDirectory => "Not a directory (os error 20)"
  | .isDirectory => "Is a directory (os error 21)"
  | .nameTooLong => "File name too long (os error 36)"
  | .tooManyLinks => "Too many levels of symbolic links (os error 40)"

/-- The names that lead from a directory to an entry. -/
abbrev Place := List Bytes

namespace Entry

def isDirectory : Entry → Bool
  | .directory _ => true
  | _ => false

/-! ## Places -/

def at? : Place → Entry → Option Entry
  | [], e => some e
  | name :: place, .directory entries =>
    match Table.get? name entries with
    | some e => at? place e
    | none => none
  | _ :: _, _ => none

/-- Puts an entry at a place or takes it away, by what was there. The directories on the way have to
exist, and the entry at the empty place cannot be taken away. -/
def alter (f : Option Entry → Option Entry) : Place → Entry → Entry
  | [], e => (f (some e)).getD e
  | [name], .directory entries =>
    match f (Table.get? name entries) with
    | some e => .directory (Table.insert name e entries)
    | none => .directory (Table.erase name entries)
  | name :: place, .directory entries =>
    match Table.get? name entries with
    | some e => .directory (Table.insert name (alter f place e) entries)
    | none => .directory entries
  | _, e => e

/-! ## Walks -/

mutual

/-- An entry and all that lies below it, with the paths that lead there from `path`. -/
def walk (path : Path) : Entry → List (Path × Entry)
  | .file data => [(path, .file data)]
  | .link target => [(path, .link target)]
  | .directory entries => (path, .directory entries) :: walkAll path entries

def walkAll (dir : Path) : List (Bytes × Entry) → List (Path × Entry)
  | [] => []
  | (name, e) :: entries => walk (Path.join dir name) e ++ walkAll dir entries

end

end Entry

end ThemeTemplates
