import ThemeTemplates.CommandLine
import ThemeTemplates.Files.Edit

/-! # The program

Reads the directory of the theme, runs the command on what it holds, and prints what the command
leaves.
-/

namespace ThemeTemplates.Program

set_option autoImplicit false

/-- A link that leads to no file. -/
def brokenLink : Entry := .link [0]

mutual

/-- The entry of a directory that is stored. What a link leads to is read as a file, if it is one. -/
partial def readEntry (found : IO.FS.DirEntry) : IO Entry := do
  let path := found.path
  match (← path.symlinkMetadata).type with
  | .dir => readDirectory found
  | .symlink =>
    if ← path.isDir then return .link Path.here
    try return .file (← IO.FS.readBinFile path).toList
    catch _ => return brokenLink
  | _ => return .file (← IO.FS.readBinFile path).toList

/-- A stored directory with all that lies below it. -/
partial def readDirectory (found : IO.FS.DirEntry) : IO Entry := do
  let mut entries : Table Bytes Entry := []
  for below in ← found.path.readDir do
    entries := Table.insert (Utf8.ofString below.fileName) (← readEntry below) entries
  return .directory entries

end

/-- The files that the command needs: those of the theme, if its directory is there. -/
def readFiles (arguments : List String) : IO FileSystem := do
  match CommandLine.read {} arguments with
  | .error _ => return .empty
  | .ok settings =>
    let path := settings.options.themePath settings.themeName
    let found : IO.FS.DirEntry := ⟨Utf8.lossy path, "."⟩
    if ← found.path.isDir then return FileSystem.empty.mount path (← readDirectory found)
    return .empty

end ThemeTemplates.Program

open ThemeTemplates in
def main (arguments : List String) : IO UInt32 := do
  let files ← Program.readFiles arguments
  let result := CommandLine.run files arguments
  IO.print result.output
  IO.eprint result.errors
  return result.exit.toUInt32
