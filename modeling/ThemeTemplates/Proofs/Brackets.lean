import ThemeTemplates.Proofs.Pairing
import ThemeTemplates.Template

/-! # Properly nested blocks

The openers and closers of a template form a sequence of brackets. `Bracket.closes open bs` reads it
from the left with the names of the blocks that are open, the innermost first; a sequence is nested
if nothing is open before it and nothing after it.

A nested sequence may stand anywhere (`closes_append`), and what follows an opener is a nested
sequence, the closer, and the rest (`exists_closing`). So the nested sequences are those that are
put together from blocks and from parts that are no brackets (`balanced_iff`).
-/

namespace ThemeTemplates

set_option autoImplicit false

/-- One end of a block of a name. -/
inductive Bracket
  | opening (name : Bytes)
  | closing (name : Bytes)
  deriving DecidableEq

namespace Bracket

def name : Bracket → Bytes
  | opening n => n
  | closing n => n

/-- Whether each closer ends the innermost block that is open, and in the end none is open. -/
def closes : List Bytes → List Bracket → Bool
  | [], [] => true
  | _ :: _, [] => false
  | names, opening n :: bs => !n.isEmpty && closes (n :: names) bs
  | [], closing _ :: _ => false
  | m :: names, closing n :: bs => m == n && closes names bs

abbrev Nested (bs : List Bracket) : Prop := closes [] bs = true

theorem closes_opening {n : Bytes} {names : List Bytes} {bs : List Bracket} :
    closes names (opening n :: bs) = true ↔ n ≠ [] ∧ closes (n :: names) bs = true := by
  cases names <;> simp [closes]

theorem closes_closing {m n : Bytes} {names : List Bytes} {bs : List Bracket} :
    closes (m :: names) (closing n :: bs) = true ↔ m = n ∧ closes names bs = true := by
  simp [closes]

theorem closes_append {as : List Bracket} {names : List Bytes} (h : closes names as = true)
    (names' : List Bytes) (bs : List Bracket) :
    closes (names ++ names') (as ++ bs) = closes names' bs := by
  induction as generalizing names with
  | nil =>
    cases names with
    | nil => rfl
    | cons m names => cases h
  | cons b as ih =>
    cases b with
    | opening n =>
      obtain ⟨hn, h⟩ := closes_opening.1 h
      have h1 := ih h
      rw [Bool.eq_iff_iff, List.cons_append, closes_opening, ← h1]
      simp [hn]
    | closing n =>
      cases names with
      | nil => cases h
      | cons m names =>
        obtain ⟨rfl, h1⟩ := closes_closing.1 h
        rw [Bool.eq_iff_iff, List.cons_append, List.cons_append, closes_closing, ← ih h1]
        simp

theorem ne_nil_of_closes {n : Bytes} {bs : List Bracket} : ∀ {names : List Bytes},
    closes names bs = true → opening n ∈ bs → n ≠ [] := by
  induction bs with
  | nil => simp
  | cons b bs ih =>
    intro names h hn
    cases b with
    | opening m =>
      obtain ⟨hm, h1⟩ := closes_opening.1 h
      rcases List.mem_cons.1 hn with e | hn
      · cases e
        exact hm
      · exact ih h1 hn
    | closing m =>
      cases names with
      | nil => cases h
      | cons m' names =>
        obtain ⟨rfl, h1⟩ := closes_closing.1 h
        exact ih h1 (by simpa using hn)

theorem nested_block {n : Bytes} {inner rest : List Bracket} (hn : n ≠ []) (hi : Nested inner)
    (hr : Nested rest) : Nested (opening n :: (inner ++ closing n :: rest)) := by
  refine closes_opening.2 ⟨hn, ?_⟩
  have h := closes_append hi [n] (closing n :: rest)
  rw [List.nil_append] at h
  rw [h]
  exact closes_closing.2 ⟨rfl, hr⟩

section
variable {α : Type} {bracket : α → Option Bracket}

/-- The part of a text that has these brackets is split where its innermost open block ends. -/
theorem exists_closing (k : Nat) : ∀ {ps : List α} {n : Bytes} {names : List Bytes},
    ps.length ≤ k → closes (n :: names) (ps.filterMap bracket) = true →
      ∃ inner p rest, ps = inner ++ p :: rest ∧ bracket p = some (closing n) ∧
        Nested (inner.filterMap bracket) ∧ closes names (rest.filterMap bracket) = true := by
  induction k with
  | zero =>
    intro ps n names hk h
    obtain rfl : ps = [] := List.length_eq_zero_iff.1 (by omega)
    cases h
  | succ k ih =>
    intro ps n names hk h
    cases ps with
    | nil => cases h
    | cons q ps =>
      rw [List.length_cons] at hk
      cases hq : bracket q with
      | none =>
        rw [List.filterMap_cons_none hq] at h
        obtain ⟨inner, p, rest, rfl, h1, h2, h3⟩ := ih (by omega) h
        exact ⟨q :: inner, p, rest, rfl, h1, by rwa [List.filterMap_cons_none hq], h3⟩
      | some b =>
        rw [List.filterMap_cons_some hq] at h
        cases b with
        | closing m =>
          obtain ⟨rfl, h1⟩ := closes_closing.1 h
          exact ⟨[], q, ps, rfl, hq, rfl, h1⟩
        | opening m =>
          -- the block of `q` first, then the rest of the one that is open
          obtain ⟨hm, h1⟩ := closes_opening.1 h
          obtain ⟨inner, p, rest, rfl, h2, h3, h4⟩ := ih (by omega) h1
          rw [List.length_append, List.length_cons] at hk
          obtain ⟨inner', p', rest', rfl, h5, h6, h7⟩ := ih (by omega) h4
          refine ⟨q :: (inner ++ p :: inner'), p', rest', by simp, h5, ?_, h7⟩
          rw [List.filterMap_cons_some hq, List.filterMap_append, List.filterMap_cons_some h2]
          exact nested_block hm h3 h6

/-- Parts that are no brackets, and blocks. -/
inductive Balanced (bracket : α → Option Bracket) : List α → Prop
  | nil : Balanced bracket []
  | leaf {p : α} {ps : List α} (h : bracket p = none) (hps : Balanced bracket ps) :
      Balanced bracket (p :: ps)
  | block {o c : α} {n : Bytes} {inner rest : List α} (hn : n ≠ [])
      (ho : bracket o = some (opening n)) (hc : bracket c = some (closing n))
      (hi : Balanced bracket inner) (hr : Balanced bracket rest) :
      Balanced bracket (o :: (inner ++ c :: rest))

theorem Balanced.nested {ps : List α} (h : Balanced bracket ps) :
    Nested (ps.filterMap bracket) := by
  induction h with
  | nil => rfl
  | leaf h _ ih => rwa [List.filterMap_cons_none h]
  | block hn ho hc _ _ ihi ihr =>
    rw [List.filterMap_cons_some ho, List.filterMap_append, List.filterMap_cons_some hc]
    exact nested_block hn ihi ihr

/-- The induction is on the length: a block leaves a shorter sequence on either side of its
closer. -/
theorem balanced_of_nested (k : Nat) : ∀ {ps : List α}, ps.length ≤ k →
    Nested (ps.filterMap bracket) → Balanced bracket ps := by
  induction k with
  | zero =>
    intro ps hk _
    obtain rfl : ps = [] := List.length_eq_zero_iff.1 (by omega)
    exact .nil
  | succ k ih =>
    intro ps hk h
    cases ps with
    | nil => exact .nil
    | cons p ps =>
      rw [List.length_cons] at hk
      cases hb : bracket p with
      | none =>
        rw [List.filterMap_cons_none hb] at h
        exact .leaf hb (ih (by omega) h)
      | some b =>
        rw [List.filterMap_cons_some hb] at h
        cases b with
        | opening n =>
          obtain ⟨hn, h1⟩ := closes_opening.1 h
          obtain ⟨inner, c, rest, rfl, h2, h3, h4⟩ := exists_closing ps.length (Nat.le_refl _) h1
          rw [List.length_append, List.length_cons] at hk
          exact .block hn hb h2 (ih (by omega) h3) (ih (by omega) h4)
        | closing n => cases h

theorem balanced_iff {ps : List α} : Balanced bracket ps ↔ Nested (ps.filterMap bracket) :=
  ⟨Balanced.nested, balanced_of_nested ps.length (Nat.le_refl _)⟩

end

end Bracket

/-! ## The brackets of tags -/

/-- The bracket of a tag. An opener without a name has the empty one, which no block has. -/
def Tag.bracket? (t : Tag) : Option Bracket :=
  match t.kind with
  | .opener => some (.opening ((Template.blockName? t.content).getD []))
  | .closer => some (.closing t.content)
  | _ => none

namespace Template

theorem blockName?_ne_nil {content name : Bytes} (h : blockName? content = some name) :
    name ≠ [] := by
  have h1 : name ∈ Bytes.fields content := List.mem_of_head? h
  have h2 := (List.mem_filter.1 h1).2
  rintro rfl
  cases h2

end Template

end ThemeTemplates
