import ThemeTemplates.Text.Utf8

/-! # Paths

A path is kept as it is written: bytes, with slashes between the components.

* `Path.join` puts a path behind a directory. An absolute path stands alone.
* `Path.components` are the names to follow. A slash at the end asks for a directory, as a dot
  component does.
* `Path.templateName?` is the name of a template file: the file name without the extension `hbs`.
-/

namespace ThemeTemplates

set_option autoImplicit false

abbrev Path := Bytes

namespace Path

def slash : UInt8 := 0x2F

def dot : UInt8 := 0x2E

def here : Bytes := [dot]

def up : Bytes := [dot, dot]

def templateExtension : Bytes := [0x68, 0x62, 0x73]

/-- Whether a path starts at the root of all files. -/
def isAbsolute (p : Path) : Bool := p.head? == some slash

def endsWithSlash (p : Path) : Bool := p.getLast? == some slash

def join (dir p : Path) : Path :=
  if isAbsolute p then p
  else if dir.isEmpty || endsWithSlash dir then dir ++ p
  else dir ++ slash :: p

def names (p : Path) : List Bytes := Bytes.parts (· == slash) p

/-- The names that do not stay where they are. -/
def steps (p : Path) : List Bytes := (names p).filter (· != here)

/-- Whether the last name stays where it is. -/
def endsHere (p : Path) : Bool := (names p).getLast? == some here

/-- Whether the last name is that of an entry, and not a step to a directory. -/
def endsInName (p : Path) : Bool := (names p).getLast?.any fun name => name != here && name != up

/-- The end of a path without slashes and dot components, read backwards. -/
def dropEnd : Bytes → Bytes
  | 0x2F :: r => dropEnd r
  | 0x2E :: 0x2F :: r => dropEnd r
  | r => r

/-- The path without its last step, and without slashes and dot components before that. -/
def parent (p : Path) : Path :=
  (dropEnd ((dropEnd p.reverse).dropWhile (· != slash))).reverse

/-- The length of the longest path. -/
def maxLength : Nat := 4095

/-- Whether a path may be handed to the file system: it is not empty, not too long, and holds no zero
byte. -/
def isUsable (p : Path) : Bool := !p.isEmpty && !p.contains 0 && p.length ≤ maxLength

/-- The names to follow, with a dot for a slash at the end. -/
def components (p : Path) : List Bytes := names p ++ if endsWithSlash p then [here] else []

/-- The last name, where that names a file. -/
def fileName? (p : Path) : Option Bytes :=
  (steps p).getLast?.filter (· != up)

/-- The parts of a file name before and after its last dot. A name whose only dot stands first has
no extension. -/
def splitExtension? (name : Bytes) : Option (Bytes × Bytes) :=
  match name.reverse.dropWhile (· != dot) with
  | [] => none
  | [_] => none
  | _ :: stem => some (stem.reverse, (name.reverse.takeWhile (· != dot)).reverse)

/-- The name of a template, if the path is that of a template file. -/
def templateName? (p : Path) : Option String :=
  match (fileName? p).bind splitExtension? with
  | none => none
  | some (stem, extension) => if extension == templateExtension then some (Utf8.lossy stem) else none

end Path

end ThemeTemplates
