import ThemeTemplates.Block.Closing
import ThemeTemplates.Block.Else
import ThemeTemplates.Functions
import ThemeTemplates.ParseError

/-! # Compiling a template

A template is read from the left. The text before each tag is literal and comes out as it is; a
comment leaves nothing, an expression leaves a node, and an opener leaves the node of a block, whose
body is the text up to its closer, compiled by itself. A closer that no opener asked for is an
error.

* `Template.fragment` compiles a piece of a template to literal text and nodes.
* `Template.compile` compiles a whole template to its root node.
-/

namespace ThemeTemplates

set_option autoImplicit false

namespace Template

variable {Context : Type}

/-- Literal text, and the nodes of the tags that stood in it. -/
structure Fragment where
  text : Bytes
  nodes : List Node
  deriving DecidableEq

/-- Puts text and a node, if there is one, in front. -/
def Fragment.push (before : Bytes) (node : Option Node) (f : Fragment) : Fragment :=
  ⟨before ++ f.text, node.toList ++ f.nodes⟩

/-- The name of a block: the first field of its opener. -/
def blockName? (content : Bytes) : Option Bytes := (Bytes.fields content).head?

/-- Compiles a piece of a template. The position of its first byte in the literal text is `offset`. -/
def fragment (functions : Functions Context) (offset : Nat) (src : Bytes) :
    Except ParseError Fragment :=
  match _h : Tag.scan src with
  | none => .ok ⟨src, []⟩
  | some t =>
    let position := offset + t.position
    match t.kind with
    | .comment => (fragment functions position t.after).map (.push t.before none)
    | .closer => .error (.unbalanced t.content t.after)
    | .expression =>
      let node := Node.ofTag functions t.content t.unescaped position [] [] none
      (fragment functions position t.after).map (.push t.before (some node))
    | .opener =>
      match blockName? t.content with
      | none => .error .emptyBlockName
      | some name =>
        match Block.closing? name t.after with
        | none => .error (.unbalanced name t.after)
        | some closer =>
          match fragment functions 0 (t.after.take closer.start) with
          | .error e => .error e
          | .ok inner =>
            let body := Block.splitElse inner.text inner.nodes
            let node := Node.ofTag functions t.content t.unescaped position body.block body.children
              body.elseBranch
            (fragment functions position (t.after.drop closer.stop)).map (.push t.before (some node))
termination_by src.length
decreasing_by
  · exact Tag.length_after_of_scan _h
  · exact Tag.length_after_of_scan _h
  · have h1 := Tag.length_after_of_scan _h
    rw [List.length_take]
    omega
  · have h1 := Tag.length_after_of_scan _h
    rw [List.length_drop]
    omega

def compile (functions : Functions Context) (src : Bytes) (name : String) :
    Except ParseError Node :=
  (fragment functions 0 src).map fun f =>
    { name, function := functions.resolve name, unescaped := false, position := 0, block := f.text,
      arguments := [], children := f.nodes }

end Template

end ThemeTemplates
