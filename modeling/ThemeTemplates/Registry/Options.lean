import ThemeTemplates.Files.Path

/-! # Options of a registry -/

namespace ThemeTemplates

set_option autoImplicit false

structure Options where
  /-- The directory with one directory for each theme. -/
  themesPath : Path := Utf8.ofString "themes"
  /-- Whether the directories of the theme are watched. -/
  development : Bool := false
  /-- How long changes have to rest before they cause a rebuild, in milliseconds. -/
  debounce : Nat := 250
  mandatory : List String := ["index", "post"]
  deriving DecidableEq, Repr

/-- The directory of a theme. An absolute name leads there by itself. -/
def Options.themePath (o : Options) (theme : String) : Path :=
  Path.join o.themesPath (Utf8.ofString theme)

/-- What names the active theme. It is asked at the start of every rebuild, and may fail with a
message. -/
inductive ThemeSource
  /-- One theme for good. -/
  | fixed (theme : String)
  /-- The answer that was set last. -/
  | settable (answer : Except String String)

def ThemeSource.answer : ThemeSource → Except String String
  | .fixed theme => .ok theme
  | .settable a => a

/-- The source with another answer, if it takes one. -/
def ThemeSource.set (a : Except String String) : ThemeSource → ThemeSource
  | .fixed theme => .fixed theme
  | .settable _ => .settable a

end ThemeTemplates
