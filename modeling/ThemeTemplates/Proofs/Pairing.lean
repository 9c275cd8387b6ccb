import ThemeTemplates.Block.Closing

/-! # Pairing openers with closers

The delimiters of a text, read from the left, are openers and closers. `Mark.search` counts how deep
they nest and finds the closer that ends a block which is already open. `settle_eq_search`: running
along the openers and the closers, each by themselves, finds the same closer.
-/

namespace ThemeTemplates

set_option autoImplicit false

namespace Delimiter

theorem mem_spansFrom {length? : Bytes → Option Nat} {s : Bytes} {d : Span} :
    ∀ {offset skip : Nat}, d ∈ spansFrom length? offset skip s →
      offset + skip ≤ d.start ∧ d.start < offset + s.length ∧ d.start ≤ d.stop := by
  induction s with
  | nil =>
    intro offset skip h
    simp [spansFrom] at h
  | cons b r ih =>
    intro offset skip h
    rw [List.length_cons]
    cases skip with
    | succ skip =>
      rw [spansFrom] at h
      have h1 := ih h
      omega
    | zero =>
      rw [spansFrom] at h
      split at h
      · have h1 := ih h
        omega
      · rcases List.mem_cons.1 h with rfl | h
        · simp only
          omega
        · have h1 := ih h
          omega

end Delimiter

namespace Block

theorem mem_of_settle {openers closers : List Span} {c : Span}
    (h : settle openers closers = some c) : c ∈ closers := by
  fun_induction settle openers closers with
  | case1 closers => exact List.mem_of_head? h
  | case2 => cases h
  | case3 o openers c' closers _ ih => exact List.mem_cons_of_mem _ (ih h)
  | case4 o openers c' closers _ =>
    cases h
    exact List.mem_cons_self

theorem mem_of_closing? {name text : Bytes} {c : Span} (h : closing? name text = some c) :
    c ∈ delimiters .closer name text := mem_of_settle h

theorem bounds_of_closing? {name text : Bytes} {c : Span} (h : closing? name text = some c) :
    c.start < text.length ∧ c.start ≤ c.stop := by
  have h1 := Delimiter.mem_spansFrom (List.mem_filter.1 (mem_of_closing? h)).1
  omega

/-! ## Counting the depth -/

/-- A delimiter of a block. -/
structure Mark where
  side : Delimiter.Side
  span : Span

/-- The spans of one side. -/
def Mark.ofSide (side : Delimiter.Side) (ms : List Mark) : List Span :=
  (ms.filter fun m => m.side = side).map Mark.span

theorem Mark.ofSide_append (side : Delimiter.Side) (ms ms' : List Mark) :
    Mark.ofSide side (ms ++ ms') = Mark.ofSide side ms ++ Mark.ofSide side ms' := by
  simp [Mark.ofSide]

/-- The closer that ends the outermost of `depth + 1` open blocks. -/
def Mark.search : (depth : Nat) → List Mark → Option Span
  | _, [] => none
  | depth, ⟨.opener, _⟩ :: ms => search (depth + 1) ms
  | 0, ⟨.closer, s⟩ :: _ => some s
  | depth + 1, ⟨.closer, _⟩ :: ms => search depth ms

/-- Openers that are known to stand before all marks count as depth. -/
theorem settle_append {ms : List Mark} : ∀ (pending : List Span),
    (ms.Pairwise fun m m' => m.span.start < m'.span.start) →
    (∀ o ∈ pending, ∀ m ∈ ms, o.start < m.span.start) →
    settle (pending ++ Mark.ofSide .opener ms) (Mark.ofSide .closer ms) =
      Mark.search pending.length ms := by
  induction ms with
  | nil =>
    intro pending _ _
    cases pending with
    | nil => rfl
    | cons o pending => rfl
  | cons m ms ih =>
    intro pending ho hp
    obtain ⟨h1, h2⟩ := List.pairwise_cons.1 ho
    obtain ⟨side, s⟩ := m
    cases side with
    | opener =>
      have h3 := ih (pending ++ [s]) h2 (by
        intro o hmem m hm
        rcases List.mem_append.1 hmem with hmem | hmem
        · exact hp o hmem m (List.mem_cons_of_mem _ hm)
        · obtain rfl := List.mem_singleton.1 hmem
          exact h1 m hm)
      rw [List.append_assoc, List.length_append, List.length_singleton] at h3
      exact h3
    | closer =>
      cases pending with
      | nil =>
        -- an opener behind this closer does not move the search on
        show settle (Mark.ofSide .opener ms) (s :: Mark.ofSide .closer ms) = some s
        cases h4 : Mark.ofSide .opener ms with
        | nil => rfl
        | cons o os =>
          have h5 : o ∈ Mark.ofSide .opener ms := by rw [h4]; exact List.mem_cons_self
          obtain ⟨m, hm, rfl⟩ := List.mem_map.1 h5
          have h6 : s.start < m.span.start := h1 m (List.mem_filter.1 hm).1
          rw [settle, if_neg (by omega)]
      | cons o pending =>
        have h4 := hp o List.mem_cons_self ⟨.closer, s⟩ List.mem_cons_self
        show settle (o :: (pending ++ Mark.ofSide .opener ms)) (s :: Mark.ofSide .closer ms) = _
        rw [settle, if_pos h4, ih pending h2 fun o' ho' m hm =>
          hp o' (List.mem_cons_of_mem _ ho') m (List.mem_cons_of_mem _ hm)]
        rfl

theorem settle_eq_search {ms : List Mark}
    (h : ms.Pairwise fun m m' => m.span.start < m'.span.start) :
    settle (Mark.ofSide .opener ms) (Mark.ofSide .closer ms) = Mark.search 0 ms :=
  settle_append [] h (by simp)

end Block

end ThemeTemplates
