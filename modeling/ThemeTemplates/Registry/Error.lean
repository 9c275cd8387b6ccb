import ThemeTemplates.Files.Entry
import ThemeTemplates.ParseError

/-! # Errors of a rebuild -/

namespace ThemeTemplates

set_option autoImplicit false

/-- Why a rebuild, or the compilation of one template, fails. -/
inductive RegistryError
  /-- The source of the theme failed. -/
  | config (message : String)
  /-- The path of the theme leads to no directory. -/
  | themeNotFound (path : Path)
  /-- A directory of the theme cannot be listed. -/
  | walk (path : Path) (cause : FileError)
  | read (path : Path) (cause : FileError)
  | duplicateTemplate (name : String) (path : Path)
  | missingTemplate (name : String)
  | parse (name : String) (cause : ParseError)
  deriving DecidableEq, Repr

namespace RegistryError

/-- The wording of a directory that cannot be listed. -/
def walkMessage (path : Path) (cause : FileError) : String :=
  "IO error for operation on " ++ Utf8.lossy path ++ ": " ++ cause.message

/-- The wordings of what caused an error, each caused by the next. -/
def causes : RegistryError → List String
  | .config message => [message]
  | .walk path cause => [walkMessage path cause, cause.message]
  | .read _ cause => [cause.message]
  | .parse _ cause => [cause.message]
  | .themeNotFound _ => []
  | .duplicateTemplate _ _ => []
  | .missingTemplate _ => []

def message : RegistryError → String
  | .config message => "Couldn't resolve the active theme: " ++ message
  | .themeNotFound path => "Couldn't find theme files in " ++ Utf8.lossy path
  | .walk path cause => "Failed to walk theme directory: " ++ walkMessage path cause
  | .read path cause => "Failed to read template " ++ Utf8.lossy path ++ ": " ++ cause.message
  | .duplicateTemplate name path =>
    "Conflicting .hbs name '" ++ name ++ "' at " ++ Utf8.lossy path ++
      ". A theme file of the same name already exists."
  | .missingTemplate name =>
    "Couldn't compile template '" ++ name ++ "'. Is " ++ name ++ ".hbs missing?"
  | .parse name cause => "Failed to compile template '" ++ name ++ "': " ++ cause.message

end RegistryError

end ThemeTemplates
