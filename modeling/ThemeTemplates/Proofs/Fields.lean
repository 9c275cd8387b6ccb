import Mathlib.Data.List.TakeWhile
import ThemeTemplates.Bytes

/-! # Trimmed text and fields

What `Bytes.trim` leaves of a text stands between blanks and has none at its ends
(`exists_trim`, `trim_append`). The first field of a text is what comes up to the first blank behind
the leading ones (`head?_fields`), and a word is a field of its own (`fields_append`). A text that
ends with a blank keeps its fields when it goes on (`fields_append_of_getLast?`).
-/

namespace ThemeTemplates.Bytes

set_option autoImplicit false

/-! ## Blanks at the ends -/

/-- Only blanks. -/
def Blank (w : Bytes) : Prop := ∀ b ∈ w, isBlank b = true

instance : DecidablePred Blank := fun w => List.decidableBAll _ w

/-- Neither the first byte nor the last one is blank. -/
structure Trimmed (w : Bytes) : Prop where
  head : ∀ b ∈ w.head?, isBlank b = false
  last : ∀ b ∈ w.getLast?, isBlank b = false

theorem blank_takeWhile (s : Bytes) : Blank (s.takeWhile isBlank) :=
  fun _ hb => List.mem_takeWhile_imp hb

theorem head?_dropWhile (s : Bytes) : ∀ b ∈ (s.dropWhile isBlank).head?, isBlank b = false := by
  intro b hb
  have h := List.head?_dropWhile_not isBlank s
  rw [Option.mem_def] at hb
  rw [hb] at h
  exact h

theorem dropWhile_of_head? {w s : Bytes} (h : ∀ b ∈ w.head?, isBlank b = false) (hw : w ≠ []) :
    (w ++ s).dropWhile isBlank = w ++ s := by
  cases w with
  | nil => exact absurd rfl hw
  | cons b w => exact List.dropWhile_cons_of_neg (by simp [h b rfl])

theorem dropWhile_append {lead s : Bytes} (h : Blank lead) :
    (lead ++ s).dropWhile isBlank = s.dropWhile isBlank :=
  List.dropWhile_append_of_pos h

theorem exists_trimEnd (s : Bytes) : ∃ trail, s = trimEnd s ++ trail ∧ Blank trail ∧
    ∀ b ∈ (trimEnd s).getLast?, isBlank b = false := by
  refine ⟨(s.reverse.takeWhile isBlank).reverse, ?_, ?_, ?_⟩
  · rw [trimEnd, ← List.reverse_append, List.takeWhile_append_dropWhile, List.reverse_reverse]
  · intro b hb
    exact blank_takeWhile _ b (List.mem_reverse.1 hb)
  · intro b hb
    rw [trimEnd, List.getLast?_reverse] at hb
    exact head?_dropWhile _ b hb

theorem exists_trim (s : Bytes) : ∃ lead trail, s = lead ++ (trim s ++ trail) ∧ Blank lead ∧
    Blank trail ∧ Trimmed (trim s) := by
  obtain ⟨trail, h1, h2, h3⟩ := exists_trimEnd (s.dropWhile isBlank)
  refine ⟨s.takeWhile isBlank, trail, ?_, blank_takeWhile s, h2, ⟨?_, h3⟩⟩
  · rw [trim, ← h1, List.takeWhile_append_dropWhile]
  · intro b hb
    obtain ⟨t, ht⟩ : ∃ t, trim s = b :: t := List.head?_eq_some_iff.1 hb
    refine head?_dropWhile s b ?_
    rw [h1, show trimEnd (s.dropWhile isBlank) = b :: t from ht]
    rfl

theorem trimEnd_append {w trail : Bytes} (hw : ∀ b ∈ w.getLast?, isBlank b = false)
    (ht : Blank trail) : trimEnd (w ++ trail) = w := by
  have h1 : (w ++ trail).reverse.dropWhile isBlank = w.reverse.dropWhile isBlank := by
    rw [List.reverse_append]
    exact List.dropWhile_append_of_pos fun b hb => ht b (List.mem_reverse.1 hb)
  rw [trimEnd, h1]
  cases hr : w.reverse with
  | nil => rw [List.reverse_eq_nil_iff.1 hr]; rfl
  | cons b r =>
    have h2 : w.getLast? = some b := by rw [← List.head?_reverse, hr]; rfl
    rw [List.dropWhile_cons_of_neg (by simp [hw b h2]), ← hr, List.reverse_reverse]

theorem trim_append {lead w trail : Bytes} (hl : Blank lead) (hw : Trimmed w) (ht : Blank trail) :
    trim (lead ++ (w ++ trail)) = w := by
  rw [trim, dropWhile_append hl]
  cases w with
  | nil =>
    have h1 : trail.dropWhile isBlank = [] := by
      rw [List.dropWhile_eq_nil_iff]
      exact ht
    rw [List.nil_append, h1]
    rfl
  | cons b w =>
    rw [dropWhile_of_head? hw.head (List.cons_ne_nil b w), trimEnd_append hw.last ht]

theorem trim_of_trimmed {w : Bytes} (hw : Trimmed w) : trim w = w := by
  have h0 : Blank [] := by simp [Blank]
  have h := trim_append h0 hw h0
  rwa [List.nil_append, List.append_nil] at h

/-! ## The first field -/

theorem head?_pieces (separates : UInt8 → Bool) (s : Bytes) :
    (pieces separates s).head? = some (s.takeWhile fun b => !separates b) := by
  induction s with
  | nil => rfl
  | cons b s ih =>
    obtain ⟨ps, hp⟩ : ∃ ps, pieces separates s = (s.takeWhile fun b => !separates b) :: ps :=
      List.head?_eq_some_iff.1 ih
    cases hb : separates b <;> simp [pieces, hb, hp]

theorem separates_of_mem_pieces {separates : UInt8 → Bool} {s p : Bytes}
    (hp : p ∈ pieces separates s) : ∀ b ∈ p, separates b = false := by
  induction s generalizing p with
  | nil =>
    obtain rfl : p = [] := by simpa [pieces] using hp
    simp
  | cons b s ih =>
    obtain ⟨ps, he⟩ : ∃ ps, pieces separates s = (s.takeWhile fun b => !separates b) :: ps :=
      List.head?_eq_some_iff.1 (head?_pieces separates s)
    rw [he] at ih
    cases hb : separates b with
    | true =>
      rw [pieces, hb, he] at hp
      rcases List.mem_cons.1 hp with rfl | hp
      · simp
      · exact ih hp
    | false =>
      rw [pieces, hb, he] at hp
      rcases List.mem_cons.1 hp with rfl | hp
      · simpa [hb] using ih List.mem_cons_self
      · exact ih (List.mem_cons_of_mem _ hp)

theorem isBlank_of_mem_fields {s w : Bytes} (hw : w ∈ fields s) : ∀ b ∈ w, isBlank b = false :=
  separates_of_mem_pieces (List.mem_filter.1 hw).1

theorem fields_of_blank {b : UInt8} (hb : isBlank b = true) (s : Bytes) :
    fields (b :: s) = fields s := by
  simp [fields, parts, pieces, hb]

theorem fields_append_of_blank {w : Bytes} (hw : Blank w) (s : Bytes) :
    fields (w ++ s) = fields s := by
  induction w with
  | nil => rfl
  | cons b w ih =>
    rw [List.cons_append, fields_of_blank (hw b List.mem_cons_self)]
    exact ih fun c hc => hw c (List.mem_cons_of_mem _ hc)

theorem head?_fields (s : Bytes) : (fields s).head? =
    if s.dropWhile isBlank = [] then none
    else some ((s.dropWhile isBlank).takeWhile fun b => !isBlank b) := by
  induction s with
  | nil => rfl
  | cons b s ih =>
    cases hb : isBlank b with
    | true => rw [fields_of_blank hb, ih, List.dropWhile_cons_of_pos hb]
    | false =>
      obtain ⟨ps, hp⟩ : ∃ ps, pieces isBlank s = (s.takeWhile fun b => !isBlank b) :: ps :=
        List.head?_eq_some_iff.1 (head?_pieces isBlank s)
      have h1 : (b :: s).dropWhile isBlank = b :: s :=
        List.dropWhile_cons_of_neg (by simp [hb])
      rw [h1, if_neg (List.cons_ne_nil b s), List.takeWhile_cons_of_pos (by simp [hb])]
      simp [fields, parts, pieces, hb, hp]

/-! ## A first field without blanks -/

theorem pieces_append {separates : UInt8 → Bool} {w s p : Bytes} {ps : List Bytes}
    (hw : ∀ b ∈ w, separates b = false) (hs : pieces separates s = p :: ps) :
    pieces separates (w ++ s) = (w ++ p) :: ps := by
  induction w with
  | nil => exact hs
  | cons b w ih =>
    have h1 := ih fun c hc => hw c (List.mem_cons_of_mem _ hc)
    rw [List.cons_append, pieces, hw b List.mem_cons_self, h1]
    rfl

theorem fields_append {w s : Bytes} (hw : ∀ b ∈ w, isBlank b = false) (hne : w ≠ [])
    (hs : ∀ b ∈ s.head?, isBlank b = true) : fields (w ++ s) = w :: fields s := by
  obtain ⟨ps, hp⟩ : ∃ ps, pieces isBlank s = [] :: ps := by
    cases s with
    | nil => exact ⟨[], rfl⟩
    | cons b r => exact ⟨pieces isBlank r, by rw [pieces, hs b rfl]⟩
  have h1 : w.isEmpty = false := by simp [hne]
  simp [fields, parts, pieces_append hw hp, hp, h1]

/-! ## Text in front of a field -/

theorem pieces_append_cons {separates : UInt8 → Bool} {b : UInt8} (hb : separates b = true)
    (w s : Bytes) : pieces separates (w ++ b :: s) = pieces separates w ++ pieces separates s := by
  induction w with
  | nil => simp [pieces, hb]
  | cons c w ih =>
    obtain ⟨ps, hp⟩ : ∃ ps, pieces separates w = (w.takeWhile fun b => !separates b) :: ps :=
      List.head?_eq_some_iff.1 (head?_pieces separates w)
    rw [hp, List.cons_append] at ih
    rw [List.cons_append, pieces, pieces, ih, hp]
    cases separates c <;> rfl

/-- The fields of a text that ends with a blank, or is empty, are fields still when it goes on. -/
theorem fields_append_of_getLast? {w : Bytes} (hw : ∀ b ∈ w.getLast?, isBlank b = true)
    (s : Bytes) : fields (w ++ s) = fields w ++ fields s := by
  cases hl : w.getLast? with
  | none =>
    rw [List.getLast?_eq_none_iff.1 hl]
    rfl
  | some b =>
    obtain ⟨u, rfl⟩ := List.getLast?_eq_some_iff.1 hl
    have hb := hw b hl
    rw [List.append_assoc, List.singleton_append]
    simp [fields, parts, pieces_append_cons hb, pieces, List.filter_append]

end ThemeTemplates.Bytes
