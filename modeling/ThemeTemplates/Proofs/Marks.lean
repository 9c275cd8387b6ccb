import Mathlib.Data.List.Infix
import ThemeTemplates.Tag

/-! # Where a mark first stands

`Bytes.cut?` in a text that is put together from parts. A part at none of whose positions the mark
starts is passed over as a whole (`cut?_append`), and the first occurrence is the one before which
there is only such a part (`cut?_eq_some_iff`).

A mark of two equal bytes starts nowhere in a part that holds no such pair and does not end with the
byte (`passes_pair`). So the literal text before a tag is `Literal`, and what stands between the
braces of a tag is `Interior`.
-/

namespace ThemeTemplates

set_option autoImplicit false

namespace Bytes

/-! ## Parts that a search passes over -/

/-- At no position of `a` does the text `a ++ s` go on with `p`. -/
def Nowhere (p : Bytes → Prop) (a s : Bytes) : Prop := ∀ u, u <:+ a → u ≠ [] → ¬ p (u ++ s)

/-- The mark starts at no position of `a` in the text `a ++ s`. -/
abbrev Passes (mark a s : Bytes) : Prop := Nowhere (fun t => mark <+: t) a s

theorem Nowhere.nil (p : Bytes → Prop) (s : Bytes) : Nowhere p [] s := by
  intro u h hu
  exact absurd (List.suffix_nil.1 h) hu

theorem nowhere_cons {p : Bytes → Prop} {a s : Bytes} {b : UInt8} :
    Nowhere p (b :: a) s ↔ ¬ p (b :: (a ++ s)) ∧ Nowhere p a s := by
  constructor
  · intro h
    refine ⟨h (b :: a) (List.suffix_refl _) (List.cons_ne_nil b a), ?_⟩
    intro u hu hne
    exact h u (hu.trans (List.suffix_cons b a)) hne
  · rintro ⟨h1, h2⟩ u hu hne
    rcases List.suffix_cons_iff.1 hu with rfl | hu'
    · exact h1
    · exact h2 u hu' hne

theorem nowhere_append {p : Bytes → Prop} {a b s : Bytes} :
    Nowhere p (a ++ b) s ↔ Nowhere p a (b ++ s) ∧ Nowhere p b s := by
  induction a with
  | nil => simp [Nowhere.nil]
  | cons x a ih =>
    rw [List.cons_append, nowhere_cons, nowhere_cons, ih, List.append_assoc]
    tauto

theorem cut?_cons_of_not_prefix {mark r : Bytes} {b : UInt8} (h : ¬ mark <+: b :: r) :
    cut? mark (b :: r) = (cut? mark r).map fun p => (b :: p.1, p.2) := by
  rw [cut?, if_neg (by rwa [List.isPrefixOf_iff_prefix])]

theorem cut?_append {mark a s : Bytes} (h : Passes mark a s) :
    cut? mark (a ++ s) = (cut? mark s).map fun p => (a ++ p.1, p.2) := by
  induction a with
  | nil => simp
  | cons b a ih =>
    obtain ⟨h1, h2⟩ := nowhere_cons.1 h
    rw [List.cons_append, cut?_cons_of_not_prefix h1, ih h2, Option.map_map]
    rfl

theorem cut?_mark (mark s : Bytes) : cut? mark (mark ++ s) = some ([], s) := by
  have h : mark.isPrefixOf (mark ++ s) = true := List.isPrefixOf_iff_prefix.2 ⟨s, rfl⟩
  cases hs : mark ++ s with
  | nil =>
    obtain ⟨rfl, rfl⟩ := List.append_eq_nil_iff.1 hs
    rfl
  | cons b r =>
    rw [cut?, ← hs, if_pos h]
    simp

theorem passes_of_cut? {mark s a r : Bytes} (h : cut? mark s = some (a, r)) :
    Passes mark a (mark ++ r) := by
  induction s generalizing a with
  | nil =>
    rw [cut?] at h
    split at h
    · cases h
      exact Nowhere.nil _ _
    · cases h
  | cons b s ih =>
    rw [cut?] at h
    split at h
    next =>
      cases h
      exact Nowhere.nil _ _
    next h1 =>
      obtain ⟨⟨p, q⟩, h2, h3⟩ := Option.map_eq_some_iff.1 h
      cases h3
      have e := eq_of_cut? h2
      rw [List.isPrefixOf_iff_prefix] at h1
      refine nowhere_cons.2 ⟨?_, ih h2⟩
      rwa [e, List.append_assoc] at h1

theorem cut?_eq_some_iff {mark s a r : Bytes} :
    cut? mark s = some (a, r) ↔ s = a ++ mark ++ r ∧ Passes mark a (mark ++ r) := by
  constructor
  · intro h
    exact ⟨eq_of_cut? h, passes_of_cut? h⟩
  · rintro ⟨rfl, h⟩
    rw [List.append_assoc, cut?_append h, cut?_mark]
    simp

theorem cut?_eq_none_iff {mark s : Bytes} : cut? mark s = none ↔ ¬ mark <:+: s := by
  constructor
  · rintro h ⟨a, r, rfl⟩
    induction a with
    | nil =>
      rw [List.nil_append, cut?_mark] at h
      cases h
    | cons b a ih =>
      rw [List.cons_append, List.cons_append, cut?] at h
      split at h
      · cases h
      · exact ih (Option.map_eq_none_iff.1 h)
  · intro h
    cases h1 : cut? mark s with
    | none => rfl
    | some p =>
      obtain ⟨a, r⟩ := p
      exact absurd ⟨a, r, (eq_of_cut? h1).symm⟩ h

theorem cut?_of_not_infix {mark s t : Bytes} (h : cut? mark s = none) (ht : t <:+: s) :
    cut? mark t = none := by
  rw [cut?_eq_none_iff] at h ⊢
  exact fun h1 => h (h1.trans ht)

/-! ## Marks of two equal bytes -/

theorem passes_pair {x : UInt8} {a s : Bytes} (h1 : ¬ [x, x] <:+: a) (h2 : a.getLast? ≠ some x) :
    Passes [x, x] a s := by
  intro u hu hne h3
  cases u with
  | nil => exact hne rfl
  | cons y u =>
    obtain ⟨rfl, h4⟩ := List.cons_prefix_cons.1 h3
    cases u with
    | nil =>
      obtain ⟨v, rfl⟩ := hu
      exact h2 (by simp)
    | cons z u =>
      obtain ⟨rfl, -⟩ := List.cons_prefix_cons.1 h4
      exact h1 ((List.prefix_append [x, x] u).isInfix.trans hu.isInfix)

theorem not_infix_of_passes {mark a s : Bytes} (hm : mark ≠ []) (h : Passes mark a s) :
    ¬ mark <:+: a := by
  rintro ⟨u, v, rfl⟩
  refine h (mark ++ v) ⟨u, by simp⟩ (by simp [hm]) ⟨v ++ s, by simp⟩

theorem getLast?_ne_of_passes {x : UInt8} {a s : Bytes} (h : Passes [x, x] a (x :: s)) :
    a.getLast? ≠ some x := by
  intro h1
  obtain ⟨v, rfl⟩ := List.getLast?_eq_some_iff.1 h1
  exact h [x] ⟨v, rfl⟩ (List.cons_ne_nil _ _) ⟨s, rfl⟩

end Bytes

namespace Tag

/-! ## Literal text and interiors -/

/-- No opening braces start in the text, whatever follows it. -/
structure Literal (w : Bytes) : Prop where
  no_open : ¬ openMark <:+: w
  no_last : w.getLast? ≠ some 0x7B

/-- No closing braces start in the text, whatever follows it. -/
structure Interior (w : Bytes) : Prop where
  no_close : ¬ closeMark <:+: w
  no_last : w.getLast? ≠ some 0x7D

/-- A tag that holds `interior` between its braces. -/
def braced (interior : Bytes) : Bytes := openMark ++ interior ++ closeMark

/-- A long comment. -/
def remark (body : Bytes) : Bytes := openMark ++ (commentMark ++ body ++ commentEnd)

theorem length_braced (interior : Bytes) : (braced interior).length = interior.length + 4 := by
  rw [braced, List.length_append, List.length_append]
  simp only [openMark, closeMark, List.length_cons, List.length_nil]
  omega

theorem braced_append (interior s : Bytes) :
    braced interior ++ s = openMark ++ (interior ++ closeMark ++ s) := by
  simp [braced]

theorem remark_eq_braced (body : Bytes) :
    remark body = braced (commentMark ++ body ++ [0x2D, 0x2D]) := by
  simp [remark, braced, commentEnd, closeMark]

theorem Literal.passes {w : Bytes} (h : Literal w) (s : Bytes) : Bytes.Passes openMark w s :=
  Bytes.passes_pair h.no_open h.no_last

theorem Interior.passes {w : Bytes} (h : Interior w) (s : Bytes) : Bytes.Passes closeMark w s :=
  Bytes.passes_pair h.no_close h.no_last

theorem literal_of_passes {w s : Bytes} (h : Bytes.Passes openMark w (openMark ++ s)) :
    Literal w :=
  ⟨Bytes.not_infix_of_passes (List.cons_ne_nil _ _) h, Bytes.getLast?_ne_of_passes h⟩

theorem interior_of_passes {w s : Bytes} (h : Bytes.Passes closeMark w (closeMark ++ s)) :
    Interior w :=
  ⟨Bytes.not_infix_of_passes (List.cons_ne_nil _ _) h, Bytes.getLast?_ne_of_passes h⟩

theorem Literal.nil : Literal [] := ⟨by decide, by decide⟩

theorem Literal.append {v w : Bytes} (hv : Literal v) (hw : Literal w) : Literal (v ++ w) := by
  have h : Bytes.Passes openMark (v ++ w) (openMark ++ []) :=
    Bytes.nowhere_append.2 ⟨hv.passes _, hw.passes _⟩
  exact literal_of_passes h

end Tag

end ThemeTemplates
