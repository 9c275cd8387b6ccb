import ThemeTemplates.Node

/-! # Outlines

The outline of a tree has a line for each node that is reached through children and else branches,
indented by two spaces a level: the name of the node, whether it is unescaped, its arguments without
the else branch, and its position.
-/

namespace ThemeTemplates.Node

set_option autoImplicit false

/-- The names of the arguments that no else branch is. -/
def shownArguments (n : Node) : List String :=
  (n.arguments.map Node.name).filter fun name => name != elseName

def heading (n : Node) : String :=
  n.name ++ (if n.unescaped then " (unescaped)" else "") ++
    (match n.shownArguments with
      | [] => ""
      | names => " [" ++ ", ".intercalate names ++ "]") ++
    " @" ++ toString n.position

def indent (depth : Nat) : String := String.ofList (List.replicate (2 * depth) ' ')

mutual

/-- The lines of a tree whose root stands at a level. -/
def outlineLines (depth : Nat) : Node → List String
  | ⟨name, function, unescaped, position, block, arguments, children⟩ =>
    (indent depth ++ heading ⟨name, function, unescaped, position, block, arguments, children⟩) ::
      (outlineAll (depth + 1) children ++ outlineElse (depth + 1) arguments)

def outlineAll (depth : Nat) : List Node → List String
  | [] => []
  | n :: ns => outlineLines depth n ++ outlineAll depth ns

/-- The lines of the else branch among some arguments. -/
def outlineElse (depth : Nat) : List Node → List String
  | [] => []
  | [n] => if n.name == elseName then outlineLines depth n else []
  | _ :: ns => outlineElse depth ns

end

/-- The text of an outline: each line ends with a line feed. -/
def outline (n : Node) : String := String.join ((outlineLines 0 n).map fun line => line ++ "\n")

end ThemeTemplates.Node
