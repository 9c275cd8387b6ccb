import ThemeTemplates.Bytes

/-! # Template trees

A template compiles to a tree of nodes. The literal text of a node is its `block`, with the tags cut
out; its `children` are those tags, each at a position of that text. Its `arguments` are leaves,
positional ones first and `key=value` ones after them; a block with an else branch has that branch
as one more argument at the end.

* `Node.elseBranch?` is the else branch, `Node.bodyIndex?` the place of a layout's body among its
  children.
* `Node.preorder` lists the nodes of a tree with the part each plays, `Node.count` counts them.
-/

namespace ThemeTemplates

set_option autoImplicit false

structure Node where
  /-- The name of a function, or a path or literal. -/
  name : String
  /-- The registered name of the function that the node calls. -/
  function : String
  /-- Set if three braces opened the tag. -/
  unescaped : Bool
  /-- The place in the block of the node above. -/
  position : Nat
  /-- The literal text, without the tags that stood in it. -/
  block : Bytes
  arguments : List Node
  children : List Node
  deriving Inhabited

namespace Node

/-! ## Equality -/

mutual

def decEq : (m n : Node) → Decidable (m = n)
  | ⟨a, b, c, d, e, f, g⟩, ⟨a', b', c', d', e', f', g'⟩ =>
    if h : a = a' ∧ b = b' ∧ c = c' ∧ d = d' ∧ e = e' then
      match decEqAll f f', decEqAll g g' with
      | .isTrue h1, .isTrue h2 => .isTrue (by
          obtain ⟨ha, hb, hc, hd, he⟩ := h
          rw [ha, hb, hc, hd, he, h1, h2])
      | .isFalse h1, _ => .isFalse fun h2 => h1 (by cases h2; rfl)
      | _, .isFalse h1 => .isFalse fun h2 => h1 (by cases h2; rfl)
    else .isFalse fun h1 => h (by cases h1; simp)

def decEqAll : (ms ns : List Node) → Decidable (ms = ns)
  | [], [] => .isTrue rfl
  | [], _ :: _ => .isFalse fun h => by cases h
  | _ :: _, [] => .isFalse fun h => by cases h
  | m :: ms, n :: ns =>
    match decEq m n, decEqAll ms ns with
    | .isTrue h1, .isTrue h2 => .isTrue (by rw [h1, h2])
    | .isFalse h1, _ => .isFalse fun h2 => h1 (by cases h2; rfl)
    | _, .isFalse h1 => .isFalse fun h2 => h1 (by cases h2; rfl)

end

instance : DecidableEq Node := decEq

/-! ## Branches -/

def elseName : String := "else"

/-- The name that a layout gives to the place of its body. -/
def bodyName : String := "body"

/-- The else branch of a block: the last argument, if that is named so. -/
def elseBranch? (n : Node) : Option Node := n.arguments.getLast?.filter fun a => a.name == elseName

/-- The index of the last child that stands for the body of a layout. -/
def bodyIndex? (n : Node) : Option Nat :=
  (n.children.reverse.findIdx? fun c => c.name == bodyName).map fun i => n.children.length - 1 - i

/-- Only the names of the children tell which of them stands for the body. -/
theorem bodyIndex?_congr {m n : Node} (h : m.children.map name = n.children.map name) :
    m.bodyIndex? = n.bodyIndex? := by
  have e (k : Node) : k.bodyIndex? = ((k.children.map name).reverse.findIdx? (· == bodyName)).map
      fun i => (k.children.map name).length - 1 - i := by
    rw [← List.map_reverse, List.findIdx?_map, List.length_map]
    rfl
  rw [e, e, h]

/-! ## All nodes of a tree -/

inductive Role
  | root
  | argument
  | child
  deriving DecidableEq, Repr

mutual

def count : Node → Nat
  | ⟨_, _, _, _, _, arguments, children⟩ => 1 + countAll children + countAll arguments

def countAll : List Node → Nat
  | [] => 0
  | n :: ns => count n + countAll ns

end

mutual

/-- A node, then the nodes of its arguments, then those of its children. -/
def preorderAs (role : Role) : Node → List (Role × Node)
  | ⟨name, function, unescaped, position, block, arguments, children⟩ =>
    (role, ⟨name, function, unescaped, position, block, arguments, children⟩) ::
      (preorderAll .argument arguments ++ preorderAll .child children)

/-- The nodes of several trees, of which the roots play the same part. -/
def preorderAll (role : Role) : List Node → List (Role × Node)
  | [] => []
  | n :: ns => preorderAs role n ++ preorderAll role ns

end

/-- The nodes of a tree with their parts: each node before its arguments, and these before its
children. -/
def preorder (n : Node) : List (Role × Node) := preorderAs .root n

mutual

theorem length_preorderAs (role : Role) : ∀ n : Node, (preorderAs role n).length = count n
  | ⟨_, _, _, _, _, arguments, children⟩ => by
    simp only [preorderAs, count, List.length_cons, List.length_append,
      length_preorderAll .argument arguments, length_preorderAll .child children]
    omega

theorem length_preorderAll (role : Role) :
    ∀ ns : List Node, (preorderAll role ns).length = countAll ns
  | [] => rfl
  | n :: ns => by
    simp only [preorderAll, countAll, List.length_append, length_preorderAs role n,
      length_preorderAll role ns]

end

theorem length_preorder (n : Node) : n.preorder.length = n.count := length_preorderAs .root n

end Node

end ThemeTemplates
