import ThemeTemplates.Proofs.Compiles
import ThemeTemplates.Proofs.Delimiters
import ThemeTemplates.Proofs.Pairing

/-! # The depth at which a block ends

Read from the left, each opener of a text goes one block deeper and each closer comes back from one.

* `Block.marks name text` lists the delimiters that count, openers and closers together, by where
  they start. No two start at one place (`pairwise_marks`).
* `Mark.depth` counts the blocks that are open after some of them, the block itself included.
* `Block.closer_eq_iff`: a block ends where the depth first comes to zero, and is unbalanced if it
  never does.
-/

namespace ThemeTemplates

set_option autoImplicit false

namespace Delimiter

variable {f : Bytes → Option Nat}

theorem pairwise_spansFrom {s : Bytes} : ∀ {offset skip : Nat},
    (spansFrom f offset skip s).Pairwise fun c d => c.start < d.start := by
  induction s with
  | nil => simp [spansFrom]
  | cons b r ih =>
    intro offset skip
    cases skip with
    | succ skip =>
      rw [spansFrom]
      exact ih
    | zero =>
      rw [spansFrom]
      split
      · exact ih
      · refine List.pairwise_cons.2 ⟨fun d hd => ?_, ih⟩
        have h1 := mem_spansFrom hd
        simp only
        omega

/-- A match stands where it starts. -/
theorem exists_of_mem_spansFrom {s : Bytes} {d : Span} : ∀ {offset skip : Nat},
    d ∈ spansFrom f offset skip s → ∃ i, d.start = offset + i ∧ (f (s.drop i)).isSome := by
  induction s with
  | nil =>
    intro offset skip h
    simp [spansFrom] at h
  | cons b r ih =>
    intro offset skip h
    have later : ∀ skip, d ∈ spansFrom f (offset + 1) skip r →
        ∃ i, d.start = offset + i ∧ (f ((b :: r).drop i)).isSome := by
      intro skip h
      obtain ⟨i, h1, h2⟩ := ih h
      exact ⟨i + 1, by omega, h2⟩
    cases skip with
    | succ skip =>
      rw [spansFrom] at h
      exact later skip h
    | zero =>
      rw [spansFrom] at h
      split at h
      next => exact later 0 h
      next n hn =>
        rcases List.mem_cons.1 h with rfl | h
        · exact ⟨0, rfl, by rw [List.drop_zero, hn]; rfl⟩
        · exact later (n - 1) h

/-- The sign tells the side of a delimiter. -/
theorem side_unique {side side' : Side} {name s : Bytes} (h : (length? side name s).isSome)
    (h' : (length? side' name s).isSome) : side = side' := by
  cases ho : openingLength? s with
  | none => simp [length?, ho] at h
  | some k =>
    rw [length?_of_opening ho] at h h'
    cases hd : Text.dropBlanks (s.drop k) with
    | nil => simp [hd] at h
    | cons sign t =>
      simp only [hd] at h h'
      split at h
      next h1 =>
        split at h'
        next h2 =>
          rw [Bool.and_eq_true, beq_iff_eq] at h1 h2
          have h3 : side.sign = side'.sign := h1.1.symm.trans h2.1
          revert h3
          cases side <;> cases side' <;> decide
        next => cases h'
      next => cases h

end Delimiter

namespace Block

/-! ## The delimiters of both sides -/

/-- The delimiters that count for blocks of one name, by where they start. -/
def marks (name text : Bytes) : List Mark :=
  List.merge ((delimiters .opener name text).map (Mark.mk .opener))
    ((delimiters .closer name text).map (Mark.mk .closer)) fun m m' => m.span.start ≤ m'.span.start

theorem pairwise_delimiters (side : Delimiter.Side) (name text : Bytes) :
    (delimiters side name text).Pairwise fun c d => c.start < d.start :=
  Delimiter.pairwise_spansFrom.sublist List.filter_sublist

/-- No opener starts where a closer does. -/
theorem start_ne_of_mem {name text : Bytes} {o c : Span} (ho : o ∈ delimiters .opener name text)
    (hc : c ∈ delimiters .closer name text) : o.start ≠ c.start := by
  intro e
  obtain ⟨i, hi, h1⟩ := Delimiter.exists_of_mem_spansFrom (List.mem_filter.1 ho).1
  obtain ⟨j, hj, h2⟩ := Delimiter.exists_of_mem_spansFrom (List.mem_filter.1 hc).1
  obtain rfl : i = j := by omega
  cases Delimiter.side_unique h1 h2

theorem marks_perm (name text : Bytes) : (marks name text).Perm
    ((delimiters .opener name text).map (Mark.mk .opener) ++
      (delimiters .closer name text).map (Mark.mk .closer)) := List.merge_perm_append _

theorem pairwise_marks (name text : Bytes) :
    (marks name text).Pairwise fun m m' => m.span.start < m'.span.start := by
  have h1 : (marks name text).Pairwise fun m m' => m.span.start ≤ m'.span.start := by
    have h : ∀ side : Delimiter.Side, ((delimiters side name text).map (Mark.mk side)).Pairwise
        fun m m' => decide (m.span.start ≤ m'.span.start) = true := by
      intro side
      refine List.pairwise_map.2 ((pairwise_delimiters side name text).imp fun h => ?_)
      exact decide_eq_true (Nat.le_of_lt h)
    have hm := @List.pairwise_merge _ (fun m m' : Mark => decide (m.span.start ≤ m'.span.start))
      (by simp only [decide_eq_true_eq]; omega) (by simp only [Bool.or_eq_true, decide_eq_true_eq]; omega)
      _ _ (h .opener) (h .closer)
    exact hm.imp of_decide_eq_true
  have h2 : (marks name text).Pairwise fun m m' => m.span.start ≠ m'.span.start := by
    refine (marks_perm name text).pairwise_iff (fun h => h.symm) |>.2 ?_
    have h : ∀ side : Delimiter.Side, ((delimiters side name text).map (Mark.mk side)).Pairwise
        fun m m' => m.span.start ≠ m'.span.start := fun side =>
      List.pairwise_map.2 ((pairwise_delimiters side name text).imp Nat.ne_of_lt)
    refine List.pairwise_append.2 ⟨h .opener, h .closer, fun m hm m' hm' => ?_⟩
    obtain ⟨o, ho, rfl⟩ := List.mem_map.1 hm
    obtain ⟨c, hc, rfl⟩ := List.mem_map.1 hm'
    exact start_ne_of_mem ho hc
  exact (h1.and h2).imp fun h => Nat.lt_of_le_of_ne h.1 h.2

theorem ofSide_map (side side' : Delimiter.Side) (ss : List Span) :
    Mark.ofSide side (ss.map (Mark.mk side')) = if side' = side then ss else [] := by
  by_cases h : side' = side
  · simp [Mark.ofSide, List.filter_map, Function.comp_def, h]
  · simp [Mark.ofSide, List.filter_map, Function.comp_def, h]

/-- The marks of one side are the delimiters of that side, in their order. -/
theorem ofSide_marks (side : Delimiter.Side) (name text : Bytes) :
    Mark.ofSide side (marks name text) = delimiters side name text := by
  have h1 : (Mark.ofSide side (marks name text)).Perm (delimiters side name text) := by
    refine (((marks_perm name text).filter _).map Mark.span).trans (List.Perm.of_eq ?_)
    show Mark.ofSide side ((delimiters .opener name text).map (Mark.mk .opener) ++
      (delimiters .closer name text).map (Mark.mk .closer)) = _
    rw [Mark.ofSide_append, ofSide_map, ofSide_map]
    cases side <;> simp
  have h2 : (Mark.ofSide side (marks name text)).Pairwise fun c d => c.start < d.start :=
    List.pairwise_map.2 ((pairwise_marks name text).sublist List.filter_sublist)
  exact h1.eq_of_pairwise (fun a b _ _ hab hba => absurd hab (Nat.lt_asymm hba)) h2
    (pairwise_delimiters side name text)

/-! ## Counting the depth -/

/-- What a delimiter adds to the depth. -/
def Mark.weight (m : Mark) : Int :=
  match m.side with
  | .opener => 1
  | .closer => -1

/-- The depth behind some delimiters that are read from this depth. -/
def Mark.depthFrom (depth : Int) (ms : List Mark) : Int :=
  ms.foldl (fun depth m => depth + m.weight) depth

/-- How many blocks are open behind some delimiters, if one was open before them. -/
def Mark.depth (ms : List Mark) : Int := depthFrom 1 ms

namespace Mark

/-- The depth is at zero nowhere. -/
def Deep (depth : Int) (ms : List Mark) : Prop := ∀ p, p <+: ms → depthFrom depth p ≠ 0

/-- The depth first comes to zero at this closer. -/
def EndsAt (depth : Int) (ms : List Mark) (c : Span) : Prop :=
  ∃ before after, ms = before ++ ⟨.closer, c⟩ :: after ∧
    depthFrom depth (before ++ [⟨.closer, c⟩]) = 0 ∧ Deep depth before

theorem deep_nil {depth : Int} : Deep depth [] ↔ depth ≠ 0 := by
  simp [Deep, depthFrom]

theorem deep_cons {depth : Int} {m : Mark} {ms : List Mark} :
    Deep depth (m :: ms) ↔ depth ≠ 0 ∧ Deep (depth + m.weight) ms := by
  constructor
  · intro h
    exact ⟨h [] List.nil_prefix, fun p hp => h (m :: p) (List.cons_prefix_cons.2 ⟨rfl, hp⟩)⟩
  · rintro ⟨h1, h2⟩ p hp
    rcases List.prefix_cons_iff.1 hp with rfl | ⟨q, rfl, hq⟩
    · exact h1
    · exact h2 q hq

theorem Deep.ne_zero {depth : Int} {ms : List Mark} (h : Deep depth ms) : depth ≠ 0 :=
  h [] List.nil_prefix

theorem EndsAt.ne_zero {depth : Int} {ms : List Mark} {c : Span} (h : EndsAt depth ms c) :
    depth ≠ 0 := by
  obtain ⟨before, after, -, -, h1⟩ := h
  exact h1.ne_zero

theorem endsAt_cons {depth : Int} {m : Mark} {ms : List Mark} {c : Span} :
    EndsAt depth (m :: ms) c ↔
      depth ≠ 0 ∧ (m = ⟨.closer, c⟩ ∧ depth = 1 ∨ EndsAt (depth + m.weight) ms c) := by
  constructor
  · rintro ⟨before, after, e, h1, h2⟩
    refine ⟨h2.ne_zero, ?_⟩
    cases before with
    | nil =>
      obtain ⟨rfl, rfl⟩ := List.cons.inj e
      have h3 : depth + -1 = 0 := h1
      exact .inl ⟨rfl, by omega⟩
    | cons m' before =>
      obtain ⟨rfl, rfl⟩ := List.cons.inj e
      exact .inr ⟨before, after, rfl, h1, (deep_cons.1 h2).2⟩
  · rintro ⟨h1, ⟨rfl, rfl⟩ | ⟨before, after, rfl, h2, h3⟩⟩
    · exact ⟨[], ms, rfl, rfl, deep_nil.2 h1⟩
    · exact ⟨m :: before, after, rfl, h2, deep_cons.2 ⟨h1, h3⟩⟩

/-- The search fails just when the depth never comes to zero. -/
theorem search_eq_none_iff {ms : List Mark} : ∀ {depth : Nat},
    search depth ms = none ↔ Deep (depth + 1) ms := by
  induction ms with
  | nil =>
    intro depth
    exact iff_of_true rfl (deep_nil.2 (by omega))
  | cons m ms ih =>
    intro depth
    obtain ⟨side, s⟩ := m
    have h0 : (depth : Int) + 1 ≠ 0 := by omega
    rw [deep_cons, and_iff_right h0]
    cases side with
    | opener => exact ih
    | closer =>
      cases depth with
      | zero => exact iff_of_false (by simp [search]) fun h => h.ne_zero rfl
      | succ depth =>
        have e : ((depth + 1 : Nat) : Int) + 1 + weight ⟨.closer, s⟩ = depth + 1 := by
          simp only [weight]
          omega
        rw [e]
        exact ih

theorem search_eq_some_iff {ms : List Mark} {c : Span} : ∀ {depth : Nat},
    search depth ms = some c ↔ EndsAt (depth + 1) ms c := by
  induction ms with
  | nil =>
    intro depth
    simp [search, EndsAt]
  | cons m ms ih =>
    intro depth
    obtain ⟨side, s⟩ := m
    have h0 : (depth : Int) + 1 ≠ 0 := by omega
    rw [endsAt_cons, and_iff_right h0]
    cases side with
    | opener =>
      rw [search, ih]
      exact (or_iff_right (by simp)).symm
    | closer =>
      cases depth with
      | zero =>
        have h1 : ¬ EndsAt (((0 : Nat) : Int) + 1 + weight ⟨.closer, s⟩) ms c :=
          fun h => h.ne_zero rfl
        rw [or_iff_left h1]
        simp [search]
      | succ depth =>
        have e : ((depth + 1 : Nat) : Int) + 1 + weight ⟨.closer, s⟩ = depth + 1 := by
          simp only [weight]
          omega
        rw [search, ih, e]
        exact (or_iff_right fun h => by omega).symm

end Mark

/-! ## The closer of a block -/

theorem closing?_eq_search_marks (name text : Bytes) :
    closing? name text = Mark.search 0 (marks name text) := by
  rw [← settle_eq_search (pairwise_marks name text), ofSide_marks, ofSide_marks, closing?]

/-- The closer of the block whose opener stands right before the text. A block without one is
unbalanced. -/
def closer (name text : Bytes) : Except ParseError Span :=
  match closing? name text with
  | some c => .ok c
  | none => .error (.unbalanced name text)

/-- A block ends at the closer where the depth first comes to zero, and is unbalanced just when it
never does. -/
theorem closer_eq_iff (name text : Bytes) :
    (∀ c, closer name text = .ok c ↔
      ∃ before after, marks name text = before ++ ⟨.closer, c⟩ :: after ∧
        Mark.depth (before ++ [⟨.closer, c⟩]) = 0 ∧ ∀ p, p <+: before → Mark.depth p ≠ 0) ∧
    (closer name text = .error (.unbalanced name text) ↔
      ∀ p, p <+: marks name text → Mark.depth p ≠ 0) := by
  have h1 : ∀ c, closing? name text = some c ↔ Mark.EndsAt 1 (marks name text) c := by
    intro c
    rw [closing?_eq_search_marks]
    exact Mark.search_eq_some_iff
  have h2 : closing? name text = none ↔ Mark.Deep 1 (marks name text) := by
    rw [closing?_eq_search_marks]
    exact Mark.search_eq_none_iff
  constructor
  · intro c
    refine Iff.trans ?_ (h1 c)
    unfold closer
    cases closing? name text <;> simp
  · refine Iff.trans ?_ h2
    unfold closer
    cases closing? name text <;> simp

/-- The inner block is closed before the outer one, and what follows is not read. -/
example : closer (Utf8.ofString "b") (Utf8.ofString "{{#b c}}X{{/b}}{{else}}Y{{/b}}{{/b}}") =
    .ok ⟨24, 30⟩ := by decide +kernel

end Block

/-- What an opener with a name leads to: its block is closed, its body is compiled, and then the text
after it. -/
theorem Template.fragment_of_opener {Context : Type} {functions : Functions Context} {offset : Nat}
    {src name : Bytes} {t : Tag} (h : Tag.scan src = some t) (hk : t.kind = .opener)
    (hn : blockName? t.content = some name) :
    fragment functions offset src = (Block.closer name t.after).bind fun closer =>
      (fragment functions 0 (t.after.take closer.start)).bind fun inner =>
        (fragment functions (offset + t.position) (t.after.drop closer.stop)).map
          (.push t.before (some (blockNode functions t (offset + t.position) inner))) := by
  unfold Block.closer
  cases hc : Block.closing? name t.after with
  | none =>
    rw [fragment_of_unclosed h hk hn hc]
    rfl
  | some closer =>
    rw [fragment_of_block h hk hn hc]
    rfl

end ThemeTemplates
