import ThemeTemplates.Text.Utf8

/-! # Errors of a template

Malformed tags are read as well as they can be, so a template fails only for block tags that cannot
be paired. There is no limit on the length of a name: the delimiters of a block are found by plain
comparison, and none of it fails because the name is too long to search for.
-/

namespace ThemeTemplates

set_option autoImplicit false

inductive ParseError
  /-- An opener without a name. -/
  | emptyBlockName
  /-- An opener or a closer without its partner, and the text that follows it. -/
  | unbalanced (name following : Bytes)
  deriving DecidableEq, Repr

namespace ParseError

/-- How many bytes of the text after a tag a message shows. -/
def shown : Nat := 32

def message : ParseError → String
  | .emptyBlockName => "empty block name"
  | .unbalanced name following =>
    "unbalanced block tag named " ++ Utf8.lossy name ++ " near \"" ++
      Utf8.lossy (following.take shown) ++ "\""

end ParseError

end ThemeTemplates
