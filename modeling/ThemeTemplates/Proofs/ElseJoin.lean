import ThemeTemplates.Proofs.TreeShape

/-! # Else branches put back

A body that was split at its first else tag can be put together again. `Block.Body.join` sets the
tag, without text and children, behind the nodes of the body, and the branch's own nodes behind it,
counted from the start of the body again.

* `Block.join_splitElse`: of a body that was split, this gives the body as it was.
* `Block.splitElse_lossless` adds where the two halves stand, and that the first of them has no else
  tag left.
-/

namespace ThemeTemplates

set_option autoImplicit false

/-- The tag that a branch was. -/
def Node.bare (n : Node) : Node := { n with block := [], children := [] }

theorem Node.bare_of_plain {n : Node} (hb : n.block = []) (hc : n.children = []) : n.bare = n := by
  cases n with
  | mk name function unescaped position block arguments children =>
    cases hb
    cases hc
    rfl

namespace Block

open Template

/-! ## Joining -/

/-- A node counted from `start`, in the text as a whole. -/
def shift (start : Nat) (n : Node) : Node := { n with position := n.position + start }

theorem shift_rebase {start : Nat} {n : Node} (h : start ≤ n.position) :
    shift start (rebase start n) = n := by
  cases n with
  | mk name function unescaped position block arguments children =>
    simp only [shift, rebase, Node.mk.injEq, and_true, true_and]
    exact Nat.sub_add_cancel h

theorem map_shift_rebase {start : Nat} {ns : List Node} (h : ∀ n ∈ ns, start ≤ n.position) :
    (ns.map (rebase start)).map (shift start) = ns := by
  induction ns with
  | nil => rfl
  | cons n ns ih =>
    obtain ⟨h1, h2⟩ := List.forall_mem_cons.1 h
    rw [List.map_cons, List.map_cons, shift_rebase h1, ih h2]

/-- The text and the nodes of both halves. -/
def Body.join (b : Body) : Fragment :=
  match b.elseBranch with
  | none => ⟨b.block, b.children⟩
  | some e => ⟨b.block ++ e.block, b.children ++ e.bare :: e.children.map (shift e.position)⟩

/-- The else tag that splits a body is no block itself. -/
def PlainElse (children : List Node) : Prop :=
  ∀ e ∈ children.find? isElse, e.block = [] ∧ e.children = []

theorem find?_isElse {main later : List Node} {e : Node} (hm : ∀ c ∈ main, isElse c = false)
    (he : isElse e = true) : (main ++ e :: later).find? isElse = some e := by
  rw [List.find?_append, List.find?_eq_none.2 (by simpa using hm), List.find?_cons_of_pos he]
  rfl

/-- A split at a plain tag, undone. -/
theorem join_splitElse {f : Fragment} (h : Placed 0 f) (hp : PlainElse f.nodes) :
    (splitElse f.text f.nodes).join = f := by
  obtain ⟨text, nodes⟩ := f
  rcases else_cases nodes with hn | ⟨main, e, later, rfl, hm, he⟩
  · rw [splitElse_of_forall hn]
    rfl
  · obtain ⟨h1, h2⟩ := hp e (find?_isElse hm he)
    have h3 : e.bare = e := Node.bare_of_plain h1 h2
    have h4 : (later.map (rebase e.position)).map (shift e.position) = later :=
      map_shift_rebase h.le_later
    rw [splitElse_append hm he, Body.join]
    simp only [Node.bare] at h3 ⊢
    rw [h3, h4, List.take_append_drop]

/-! ## The two halves -/

/-- A body without an else tag is left as it is. Any other is split into halves from which it can be
read back, as long as the tag where it is split is plain: no text and no node is lost, and the nodes
of either half stand in order and inside its text. -/
theorem splitElse_lossless {text : Bytes} {nodes : List Node} (h : Placed 0 ⟨text, nodes⟩)
    (hp : PlainElse nodes) :
    ((∀ c ∈ nodes, isElse c = false) → splitElse text nodes = ⟨text, nodes, none⟩) ∧
    ((∃ c ∈ nodes, isElse c = true) → ∃ block children e,
      splitElse text nodes = ⟨block, children, some e⟩ ∧ isElse e = true ∧
      block ++ e.block = text ∧ block.length = e.position ∧
      children ++ e.bare :: e.children.map (shift e.position) = nodes ∧
      (∀ c ∈ children, isElse c = false) ∧
      Placed 0 ⟨block, children⟩ ∧ Placed 0 ⟨e.block, e.children⟩) := by
  refine ⟨splitElse_of_forall, ?_⟩
  rintro ⟨c, hc, hce⟩
  rcases else_cases nodes with hn | ⟨main, e, later, rfl, hm, he⟩
  · rw [hn c hc] at hce
    cases hce
  · have h1 : splitElse text (main ++ e :: later) = _ := splitElse_append hm he
    have h2 := join_splitElse h hp
    simp only [h1, Body.join, Fragment.mk.injEq] at h2
    exact ⟨_, _, _, h1, he, h2.1, h.length_take, h2.2, hm, h.before, h.behind⟩

/-- A node at the place of the tag, and another else tag behind it. -/
theorem splitElse_lossless_shared :
    ∃ (text : Bytes) (nodes : List Node), text = Utf8.ofString "abcd" ∧
      nodes.map Node.name = ["x", "else", "y", "else"] ∧ nodes.map Node.position = [1, 2, 2, 3] ∧
      Placed 0 ⟨text, nodes⟩ ∧ PlainElse nodes ∧ (∃ c ∈ nodes, isElse c = true) ∧
      ∃ block children e, splitElse text nodes = ⟨block, children, some e⟩ ∧ isElse e = true ∧
        block ++ e.block = text ∧ block.length = e.position ∧
        children ++ e.bare :: e.children.map (shift e.position) = nodes ∧
        (∀ c ∈ children, isElse c = false) ∧
        Placed 0 ⟨block, children⟩ ∧ Placed 0 ⟨e.block, e.children⟩ := by
  let leaf (name : String) (position : Nat) : Node := ⟨name, "null", false, position, [], [], []⟩
  let nodes := [leaf "x" 1, leaf "else" 2, leaf "y" 2, leaf "else" 3]
  have h1 : Placed 0 ⟨Utf8.ofString "abcd", nodes⟩ := ⟨by decide, by decide, by decide⟩
  have h2 : PlainElse nodes := by
    rintro e ⟨⟩
    exact ⟨rfl, rfl⟩
  have h3 : ∃ c ∈ nodes, isElse c = true := ⟨leaf "else" 2, by simp [nodes], rfl⟩
  exact ⟨_, nodes, rfl, rfl, rfl, h1, h2, h3, (splitElse_lossless h1 h2).2 h3⟩

end Block

end ThemeTemplates
