import ThemeTemplates.Proofs.ElseJoin
import ThemeTemplates.Proofs.Excision

/-! # Text in front of a template

The children of a root are counted from the start of the template, and all deeper nodes from the
start of a body. So text in front of a template moves the children of the root and nothing else, if
no tag can begin in it.

* `Template.fragment_shift`: a piece of a template that stands `n` bytes further on has the same text
  and the same nodes, each `n` bytes further on.
* `Template.compile_lead`: what becomes of a whole template, errors included.
-/

namespace ThemeTemplates

set_option autoImplicit false

theorem Tag.literal_of_not_mem {w : Bytes} (h : 0x7B ∉ w) : Literal w where
  no_open := fun h1 => h (h1.subset (List.mem_cons_self : 0x7B ∈ openMark))
  no_last := fun h1 => h (List.mem_of_getLast? h1)

namespace Node

/-- A root with more text in front of its own. -/
def lead (w : Bytes) (root : Node) : Node :=
  { root with
    block := w ++ root.block
    children := root.children.map (Block.shift w.length) }

theorem bodyIndex?_lead (w : Bytes) (root : Node) : (root.lead w).bodyIndex? = root.bodyIndex? := by
  apply bodyIndex?_congr
  simp only [lead, List.map_map]
  rfl

end Node

namespace Template

variable {Context : Type} (functions : Functions Context)

/-! ## A piece that stands further on -/

theorem shift_expressionNode (n position : Nat) (t : Tag) :
    Block.shift n (expressionNode functions t position) =
      expressionNode functions t (position + n) := rfl

theorem shift_blockNode (n position : Nat) (t : Tag) (inner : Fragment) :
    Block.shift n (blockNode functions t position inner) =
      blockNode functions t (position + n) inner := rfl

theorem fragment_shift (n offset : Nat) (src : Bytes) :
    fragment functions (offset + n) src =
      (fragment functions offset src).map (.mapNodes (Block.shift n)) := by
  induction offset, src using fragment.induct functions with
  | case1 offset src hs =>
    rw [fragment_of_none hs, fragment_of_none hs]
    rfl
  | case2 offset src t hs position hk ih =>
    rw [fragment_of_comment hs hk, fragment_of_comment hs hk, map_push_mapNodes, ← ih,
      Nat.add_right_comm]
    rfl
  | case3 offset src t hs hk =>
    rw [fragment_of_closer hs hk, fragment_of_closer hs hk]
    rfl
  | case4 offset src t hs position hk ih =>
    rw [fragment_of_expression hs hk, fragment_of_expression hs hk, map_push_mapNodes, ← ih,
      Option.map_some, shift_expressionNode, Nat.add_right_comm]
  | case5 offset src t hs hk hn =>
    rw [fragment_of_unnamed hs hk hn, fragment_of_unnamed hs hk hn]
    rfl
  | case6 offset src t hs hk name hn hc =>
    rw [fragment_of_unclosed hs hk hn hc, fragment_of_unclosed hs hk hn hc]
    rfl
  | case7 offset src t hs hk name hn closer hc e he ih =>
    rw [fragment_of_block hs hk hn hc, fragment_of_block hs hk hn hc, he]
    rfl
  | case8 offset src t hs position hk name hn closer hc inner hi ihi ihf =>
    -- the body is compiled from position zero in both, so only the text behind the block differs
    rw [fragment_of_block hs hk hn hc, fragment_of_block hs hk hn hc, hi]
    show (fragment functions (offset + n + t.position) (t.after.drop closer.stop)).map
        (Fragment.push t.before (some (blockNode functions t (offset + n + t.position) inner))) =
      ((fragment functions position (t.after.drop closer.stop)).map
        (Fragment.push t.before (some (blockNode functions t position inner)))).map
          (Fragment.mapNodes (Block.shift n))
    rw [map_push_mapNodes, ← ihf, Option.map_some, shift_blockNode, Nat.add_right_comm]

/-! ## A whole template -/

theorem compile_append {w : Bytes} (hw : Tag.Literal w) (src : Bytes) (name : String) :
    compile functions (w ++ src) name = (compile functions src name).map (Node.lead w) := by
  have h1 := fragment_append functions hw src 0
  rw [fragment_shift functions w.length 0 src] at h1
  rw [compile_eq, compile_eq, h1]
  cases fragment functions 0 src with
  | error e => rfl
  | ok f => rfl

/-- Text without an opening brace in front of a template stands in front of the text of the root and
moves the root's children by its length. Everything else stays as it is, and so does an error. -/
theorem compile_lead {w : Bytes} (hw : 0x7B ∉ w) (src : Bytes) (name : String) :
    (∀ e, compile functions (w ++ src) name = .error e ↔ compile functions src name = .error e) ∧
    ∀ root, compile functions src name = .ok root →
      compile functions (w ++ src) name = .ok (root.lead w) ∧
        (root.lead w).bodyIndex? = root.bodyIndex? := by
  have h1 := compile_append functions (Tag.literal_of_not_mem hw) src name
  rw [h1]
  constructor
  · intro e
    cases compile functions src name with
    | error e' => rfl
    | ok root => exact iff_of_false (fun h => by cases h) fun h => by cases h
  · intro root h
    rw [h]
    exact ⟨rfl, root.bodyIndex?_lead w⟩

/-- A block with two branches and the body of a layout, and a block that is never closed. -/
theorem compile_lead_body :
    let w := Utf8.ofString "a\x7d\x7db"
    let src := Utf8.ofString "u{{#b x}}y{{else}}z{{v}}{{/b}}{{body}}"
    0x7B ∉ w ∧
      (∃ root, compile ([] : Functions Unit) src "t" = .ok root ∧
        root.children.map Node.position = [1, 1] ∧ root.bodyIndex? = some 1 ∧
        compile ([] : Functions Unit) (w ++ src) "t" = .ok (root.lead w) ∧
        (root.lead w).bodyIndex? = root.bodyIndex? ∧
        (root.lead w).children.map Node.position = [5, 5]) ∧
      compile ([] : Functions Unit) (w ++ Utf8.ofString "{{#b}}c") "t" =
        .error (.unbalanced [0x62] [0x63]) := by
  intro w src
  have hw : 0x7B ∉ w := by decide +kernel
  have h1 : (compile ([] : Functions Unit) src "t").toOption.map (fun root =>
      (root.children.map Node.position, root.bodyIndex?)) = some ([1, 1], some 1) := by
    decide +kernel
  obtain ⟨root, hr, h2⟩ := exists_of_toOption h1
  obtain ⟨h3, h4⟩ := Prod.mk.inj h2
  obtain ⟨h5, h6⟩ := (compile_lead ([] : Functions Unit) hw src "t").2 root hr
  have h7 : (root.lead w).children.map Node.position =
      (root.children.map Node.position).map (· + w.length) := by
    simp only [Node.lead, List.map_map]
    rfl
  refine ⟨hw, ⟨root, hr, h3, h4, h5, h6, ?_⟩, ?_⟩
  · rw [h7, h3]
    decide +kernel
  · apply ((compile_lead ([] : Functions Unit) hw _ "t").1 _).2
    decide +kernel

end Template

end ThemeTemplates
