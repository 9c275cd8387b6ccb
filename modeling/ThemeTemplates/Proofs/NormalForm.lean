import ThemeTemplates.Proofs.Passes
import ThemeTemplates.Proofs.TreeShape

/-! # Compiled text is in normal form

A text has no tag just when no closing braces stand behind opening ones (`Tag.scan_eq_none_iff`).
So no part of such a text has one, and a body may be cut anywhere for its else branch. A compilation
stops at a text without tags, so every block of a compiled tree is one, and compiling it again
changes nothing (`Template.compile_normal`).
-/

namespace ThemeTemplates

set_option autoImplicit false

/-! ## Text without tags -/

namespace Bytes

/-- What follows the first mark ends with what follows any mark. -/
theorem suffix_of_cut? {mark a s b r : Bytes} (h : cut? mark (a ++ (mark ++ s)) = some (b, r)) :
    s <:+ r := by
  induction a generalizing b with
  | nil =>
    rw [List.nil_append, cut?_mark] at h
    cases h
    exact List.suffix_refl s
  | cons x a ih =>
    rw [List.cons_append, cut?] at h
    split at h
    next =>
      cases h
      have h1 : s <:+ x :: (a ++ (mark ++ s)) := ⟨x :: (a ++ mark), by simp⟩
      refine List.suffix_of_suffix_length_le h1 (List.drop_suffix _ _) ?_
      simp only [List.length_drop, List.length_cons, List.length_append]
      omega
    next =>
      obtain ⟨⟨b', r'⟩, h1, h2⟩ := Option.map_eq_some_iff.1 h
      cases h2
      exact ih h1

end Bytes

namespace Tag

theorem scan_eq_none_iff {src : Bytes} : scan src = none ↔
    ∀ before inner, src = before ++ (openMark ++ inner) → ¬ closeMark <:+: inner := by
  constructor
  · rintro h before inner rfl hc
    cases h1 : Bytes.cut? openMark (before ++ (openMark ++ inner)) with
    | none => exact Bytes.cut?_eq_none_iff.1 h1 ⟨before, inner, by simp⟩
    | some p =>
      obtain ⟨b, r⟩ := p
      have h2 : Bytes.cut? closeMark r ≠ none := fun h3 =>
        Bytes.cut?_eq_none_iff.1 h3 (hc.trans (Bytes.suffix_of_cut? h1).isInfix)
      simp only [scan, h1] at h
      split at h
      next => cases h
      next => exact h2 (Option.map_eq_none_iff.1 h)
  · intro h
    unfold scan
    split
    next => rfl
    next before inner h1 =>
      have h2 : ¬ closeMark <:+: inner := by
        refine h before inner ?_
        rw [Bytes.eq_of_cut? h1, List.append_assoc]
      split
      next body after h3 =>
        refine absurd ⟨body ++ [0x2D, 0x2D], after, ?_⟩ h2
        rw [eq_of_longComment? h3]
        simp [closeMark, commentEnd]
      next => rw [Bytes.cut?_eq_none_iff.2 h2, Option.map_none]

theorem scan_of_infix {w src : Bytes} (h : scan src = none) (hw : w <:+: src) : scan w = none := by
  obtain ⟨x, y, rfl⟩ := hw
  refine scan_eq_none_iff.2 fun before inner e hc => ?_
  refine scan_eq_none_iff.1 h (x ++ before) (inner ++ y) ?_ (hc.trans (List.infix_append' [] _ y))
  rw [e]
  simp

end Tag

/-! ## Trees without tags -/

namespace Node

/-- No block of the tree has a tag. -/
def Tagless (n : Node) : Prop := ∀ p ∈ preorderAs .child n, Tag.scan p.2.block = none

theorem tagless_iff {n : Node} : n.Tagless ↔
    Tag.scan n.block = none ∧ (∀ a ∈ n.arguments, a.Tagless) ∧ ∀ c ∈ n.children, c.Tagless :=
  forall_node_iff fun n => Tag.scan n.block = none

theorem IsLeaf.tagless {unescaped : Bool} {n : Node} (h : n.IsLeaf unescaped) : n.Tagless := by
  refine tagless_iff.2 ⟨?_, ?_, ?_⟩
  · rw [h.block]; rfl
  · rw [h.arguments]; simp
  · rw [h.children]; simp

theorem tagless_ofTag {Context : Type} {functions : Functions Context} {content : Bytes}
    {unescaped : Bool} {position : Nat} {block : Bytes} {children : List Node}
    {elseBranch : Option Node} (hb : Tag.scan block = none) (hc : ∀ c ∈ children, c.Tagless)
    (he : ∀ e ∈ elseBranch, e.Tagless) :
    (ofTag functions content unescaped position block children elseBranch).Tagless := by
  refine tagless_iff.2 ⟨hb, ?_, hc⟩
  intro a ha
  rw [ofTag_arguments] at ha
  rcases List.mem_append.1 ha with h | h
  · obtain ⟨token, -, rfl⟩ := List.mem_map.1 h
    exact (isLeaf_ofToken functions unescaped token).tagless
  · exact he a (by simpa using h)

end Node

namespace Template

variable {Context : Type} {functions : Functions Context}

/-- Where a body without tags is cut, none arises on either side. -/
theorem tagless_blockNode {t : Tag} {position : Nat} {inner : Fragment}
    (ht : Tag.scan inner.text = none) (hn : ∀ n ∈ inner.nodes, n.Tagless) :
    (blockNode functions t position inner).Tagless := by
  obtain ⟨text, nodes⟩ := inner
  unfold blockNode
  rcases Block.else_cases nodes with h | ⟨main, e, later, rfl, hm, he⟩
  · rw [Block.splitElse_of_forall h]
    exact Node.tagless_ofTag ht hn (by simp)
  · rw [Block.splitElse_append hm he]
    refine Node.tagless_ofTag (Tag.scan_of_infix ht (List.take_prefix _ _).isInfix)
      (fun c hc => hn c (by simp [hc])) ?_
    rintro _ ⟨⟩
    obtain ⟨-, hargs, -⟩ := Node.tagless_iff.1 (hn e (by simp))
    refine Node.tagless_iff.2 ⟨Tag.scan_of_infix ht (List.drop_suffix _ _).isInfix, hargs, ?_⟩
    intro c' hc'
    obtain ⟨c, hc, rfl⟩ := List.mem_map.1 hc'
    have h1 := Node.tagless_iff.1 (hn c (by simp [hc]))
    exact Node.tagless_iff.2 h1

theorem Swept.tagless {src : Bytes} {f : Fragment} (h : Swept functions src f) :
    Tag.scan f.text = none ∧ ∀ n ∈ f.nodes, n.Tagless := by
  induction h with
  | done h => exact ⟨scan_of_pass_done h, by simp⟩
  | @tag src rest t f h hf ih =>
    refine ⟨ih.1, fun n hn => ?_⟩
    rcases List.mem_append.1 hn with hn | hn
    · unfold tagNode? at hn
      split at hn
      · obtain rfl : n = expressionNode functions t t.position := by simpa using hn
        exact Node.tagless_ofTag rfl (by simp) (by simp)
      · simp at hn
    · exact ih.2 n hn
  | block h hi hf ihi ihf =>
    refine ⟨ihf.1, fun n hn => ?_⟩
    rcases List.mem_cons.1 hn with rfl | hn
    · exact tagless_blockNode ihi.1 ihi.2
    · exact ihf.2 n hn

theorem compile_of_scan_eq_none {w : Bytes} (h : Tag.scan w = none) (name : String) :
    compile functions w name = .ok (rootNode functions name ⟨w, []⟩) := by
  rw [compile_eq, fragment_of_none h]
  rfl

/-- No block of a compiled template has a tag, so compiling a block gives it back. -/
theorem compile_normal {src : Bytes} {name : String} {root : Node}
    (h : compile functions src name = .ok root) : ∀ p ∈ root.preorder,
      Tag.scan p.2.block = none ∧ ∀ name', ∃ again,
        compile functions p.2.block name' = .ok again ∧ again.block = p.2.block ∧
        again.children = [] := by
  obtain ⟨f, hf, rfl⟩ := exists_swept h
  obtain ⟨h1, h2⟩ := hf.tagless
  intro p hp
  have h3 : Tag.scan p.2.block = none := by
    refine Node.forall_preorderAs.2 ⟨h1, ?_, fun c hc => h2 c hc⟩ p hp
    intro a ha
    simp [rootNode] at ha
  exact ⟨h3, fun name' => ⟨_, compile_of_scan_eq_none h3 name', rfl, rfl⟩⟩

theorem compile_normal_unclosed :
    ∃ root, compile ([] : Functions Unit)
        (Utf8.ofString "\x7d\x7d{{#b}}c{{else}}{{d}}\x7d{{/b}}\x7b\x7bx") "t" = .ok root ∧
      root.block = Utf8.ofString "\x7d\x7d\x7b\x7bx" ∧ root.count = 4 ∧
      ∀ p ∈ root.preorder, Tag.scan p.2.block = none ∧ ∀ name', ∃ again,
        compile ([] : Functions Unit) p.2.block name' = .ok again ∧ again.block = p.2.block ∧
        again.children = [] := by
  have h1 : (compile ([] : Functions Unit)
      (Utf8.ofString "\x7d\x7d{{#b}}c{{else}}{{d}}\x7d{{/b}}\x7b\x7bx") "t").toOption.map
        (fun root => (root.block, root.count)) = some (Utf8.ofString "\x7d\x7d\x7b\x7bx", 4) := by
    decide +kernel
  obtain ⟨root, hr, h2⟩ := exists_of_toOption h1
  obtain ⟨h3, h4⟩ := Prod.mk.inj h2
  exact ⟨root, hr, h3, h4, compile_normal hr⟩

end Template

end ThemeTemplates
