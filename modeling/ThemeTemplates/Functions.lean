import ThemeTemplates.Arguments
import ThemeTemplates.Node
import ThemeTemplates.Table

/-! # Functions that nodes call

A table of functions gives names to renderers. A node is bound when it is built: to the function of
its own name if the table has one, and to `null` otherwise. The fallback `null` renders nothing
unless the table gives that name to another renderer.

* `Functions.resolve` binds a name, `Functions.call` renders a node.
* `Node.ofTag` builds the node of a tag.
-/

namespace ThemeTemplates

set_option autoImplicit false

/-- What a function writes for a node, in the context of one rendering. -/
abbrev Renderer (Context : Type) := Node → Context → Bytes

abbrev Functions (Context : Type) := Table String (Renderer Context)

namespace Functions

variable {Context : Type}

def nullName : String := "null"

def null : Renderer Context := fun _ _ => []

/-- The table with the fallback under its name. -/
def addBuiltins (functions : Functions Context) : Functions Context :=
  Table.insert nullName null functions

/-- The table with a fallback: the one that it has, or else the one that renders nothing. -/
def withNull (functions : Functions Context) : Functions Context :=
  if Table.has nullName functions then functions else addBuiltins functions

/-- The name under which a node of this name is bound. -/
def resolve (functions : Functions Context) (name : String) : String :=
  if Table.has name functions then name else nullName

def call (functions : Functions Context) (n : Node) (context : Context) : Bytes :=
  ((Table.get? n.function functions).getD null) n context

end Functions

namespace Node

variable {Context : Type}

def ofToken (functions : Functions Context) (unescaped : Bool) (token : Bytes) : Node :=
  let name := Utf8.lossy token
  { name, function := functions.resolve name, unescaped, position := 0, block := [],
    arguments := [], children := [] }

/-- The node of a tag with this content. Its arguments are escaped as the tag is, and an else branch
comes after them. -/
def ofTag (functions : Functions Context) (content : Bytes) (unescaped : Bool) (position : Nat)
    (block : Bytes) (children : List Node) (elseBranch : Option Node) : Node :=
  let args := Arguments.parse content
  let name := Utf8.lossy args.name
  { name, function := functions.resolve name, unescaped, position, block,
    arguments :=
      (args.positional ++ args.named).map (ofToken functions unescaped) ++ elseBranch.toList
    children }

end Node

end ThemeTemplates
