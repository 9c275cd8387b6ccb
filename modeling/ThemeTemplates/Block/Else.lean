import ThemeTemplates.Node

/-! # Else branches

The first child named `else` splits the body of a block in two. The text and the children after it
become its own, with the positions of these children counted from it, and it leaves the children for
the end of the arguments. A later child of that name stays a child of the branch.
-/

namespace ThemeTemplates.Block

set_option autoImplicit false

structure Body where
  block : Bytes
  children : List Node
  elseBranch : Option Node
  deriving DecidableEq

def isElse (n : Node) : Bool := n.name == Node.elseName

/-- A node of the text from `start` on. -/
def rebase (start : Nat) (n : Node) : Node := { n with position := n.position - start }

def splitElse (block : Bytes) (children : List Node) : Body :=
  match children.dropWhile fun c => !isElse c with
  | [] => ⟨block, children, none⟩
  | e :: later =>
    { block := block.take e.position
      children := children.takeWhile fun c => !isElse c
      elseBranch := some { e with
        block := block.drop e.position
        children := later.map (rebase e.position) } }

theorem splitElse_of_forall {block : Bytes} {children : List Node}
    (h : ∀ c ∈ children, isElse c = false) :
    splitElse block children = ⟨block, children, none⟩ := by
  have h1 : children.dropWhile (fun c => !isElse c) = [] := by
    induction children with
    | nil => rfl
    | cons c cs ih =>
      rw [List.dropWhile_cons_of_pos (by simp [h c])]
      exact ih fun d hd => h d (List.mem_cons_of_mem c hd)
  rw [splitElse, h1]

end ThemeTemplates.Block
