import ThemeTemplates.Proofs.Characters
import ThemeTemplates.Proofs.Marks

/-! # Which tags the delimiter patterns recognise

* `Delimiter.isHead s`: braces, blanks and one of the two signs start `s`. Nothing else starts a
  delimiter (`length?_of_not_head`).
* `Delimiter.Spells side name interior`: the interior of a tag spells a delimiter of a block. The
  patterns take such a tag as a delimiter of its own name (`length?_of_spells`) and of no other
  (`length?_of_spells_ne`).
* `spansFrom_append` and `exists_spansFrom_append` put the matches of a text together from those of
  its parts. A match ends with the closing braces that come first, and may take one brace more
  (`length?_le`).
-/

namespace ThemeTemplates.Delimiter

set_option autoImplicit false

/-! ## Matches of a text in parts -/

section
variable {f : Bytes → Option Nat}

theorem spansFrom_eq_drop {s : Bytes} : ∀ {offset skip : Nat},
    spansFrom f offset skip s = spansFrom f (offset + skip) 0 (s.drop skip) := by
  induction s with
  | nil =>
    intro offset skip
    rw [List.drop_nil]
    rfl
  | cons b r ih =>
    intro offset skip
    cases skip with
    | zero => rfl
    | succ skip =>
      rw [spansFrom, ih, List.drop_succ_cons]
      congr 1
      omega

theorem spansFrom_of_none {s : Bytes} {b : UInt8} {offset : Nat} (h : f (b :: s) = none) :
    spansFrom f offset 0 (b :: s) = spansFrom f (offset + 1) 0 s := by
  rw [spansFrom, h]

theorem spansFrom_of_some {s : Bytes} {offset k : Nat} (h : f s = some k) (hk : 0 < k)
    (hs : s ≠ []) :
    spansFrom f offset 0 s = ⟨offset, offset + k⟩ :: spansFrom f (offset + k) 0 (s.drop k) := by
  cases s with
  | nil => exact absurd rfl hs
  | cons b r =>
    obtain ⟨k, rfl⟩ := Nat.exists_eq_add_of_lt hk
    rw [spansFrom, h]
    simp only
    rw [spansFrom_eq_drop]
    have e1 : 0 + k + 1 - 1 = k := by omega
    have e2 : offset + 1 + k = offset + (0 + k + 1) := by omega
    rw [e1, e2, Nat.zero_add, List.drop_succ_cons]

theorem spansFrom_append {a s : Bytes} (h : Bytes.Nowhere (fun t => (f t).isSome) a s) :
    ∀ {offset : Nat}, spansFrom f offset 0 (a ++ s) = spansFrom f (offset + a.length) 0 s := by
  induction a with
  | nil => intro offset; rfl
  | cons b a ih =>
    intro offset
    obtain ⟨h1, h2⟩ := Bytes.nowhere_cons.1 h
    rw [Option.not_isSome_iff_eq_none] at h1
    rw [List.cons_append, spansFrom_of_none h1, ih h2, List.length_cons]
    congr 1
    omega

/-- Matches that start in `a` and end in it, or with a brace right behind it, leave those of the
text behind `a` as they are. -/
theorem exists_spansFrom_append {s : Bytes} (hb : ∀ t, f (0x7D :: t) = none) (n : Nat) :
    ∀ {a : Bytes} (offset : Nat), a.length ≤ n →
      (∀ u, u <:+ a → u ≠ [] → ∀ k, f (u ++ s) = some k →
        k ≤ u.length ∨ k = u.length + 1 ∧ s.head? = some 0x7D) →
      ∃ own, spansFrom f offset 0 (a ++ s) = own ++ spansFrom f (offset + a.length) 0 s ∧
        ∀ d ∈ own, offset ≤ d.start ∧ d.start < offset + a.length := by
  induction n with
  | zero =>
    intro a offset hn _
    obtain rfl : a = [] := List.length_eq_zero_iff.1 (by omega)
    exact ⟨[], rfl, by simp⟩
  | succ n ih =>
    intro a offset hn h
    cases a with
    | nil => exact ⟨[], rfl, by simp⟩
    | cons b a =>
      rw [List.length_cons] at hn ⊢
      cases hk : f (b :: a ++ s) with
      | none =>
        obtain ⟨own, h1, h2⟩ := ih (offset + 1) (by omega) fun u hu =>
          h u (hu.trans (List.suffix_cons b a))
        refine ⟨own, ?_, ?_⟩
        · rw [List.cons_append] at hk ⊢
          rw [spansFrom_of_none hk, h1]
          congr 2
          omega
        · intro d hd
          have h3 := h2 d hd
          omega
      | some k =>
        have h1 := h (b :: a) (List.suffix_refl _) (by simp) k hk
        rw [List.length_cons] at h1
        have h2 : spansFrom f offset 0 (b :: a ++ s) =
            ⟨offset, offset + k⟩ :: spansFrom f (offset + 1 + (k - 1)) 0 ((a ++ s).drop (k - 1)) := by
          rw [List.cons_append] at hk
          rw [List.cons_append, spansFrom, hk]
          simp only
          rw [spansFrom_eq_drop]
        rcases h1 with h1 | ⟨rfl, h1⟩
        · have h3 : (a.drop (k - 1)).length = a.length - (k - 1) := List.length_drop
          have hle : (a.drop (k - 1)).length ≤ n := by omega
          obtain ⟨own, h4, h5⟩ := ih (offset + 1 + (k - 1)) hle
            fun u hu => h u ((hu.trans (List.drop_suffix _ _)).trans (List.suffix_cons b a))
          refine ⟨⟨offset, offset + k⟩ :: own, ?_, ?_⟩
          · rw [h2, List.drop_append_of_le_length (by omega), h4, List.cons_append]
            congr 3
            omega
          · intro d hd
            rcases List.mem_cons.1 hd with rfl | hd
            · exact ⟨Nat.le_refl _, by simp only; omega⟩
            · have h6 := h5 d hd
              omega
        · obtain ⟨t, rfl⟩ : ∃ t, s = 0x7D :: t := List.head?_eq_some_iff.1 h1
          refine ⟨[⟨offset, offset + (a.length + 1 + 1)⟩], ?_, ?_⟩
          · have e : (a ++ 0x7D :: t).drop (a.length + 1 + 1 - 1) = t := by
              rw [show a.length + 1 + 1 - 1 = a.length + 1 by omega, List.drop_append]
              simp
            rw [h2, e, spansFrom_of_none (hb t), List.singleton_append]
            congr 2
            omega
          · intro d hd
            obtain rfl := List.mem_singleton.1 hd
            exact ⟨Nat.le_refl _, by simp only; omega⟩

end

/-! ## The parts of a match -/

theorem exists_of_openingLength? {s : Bytes} {k : Nat} (h : openingLength? s = some k) :
    ∃ o r, s = o ++ r ∧ o.length = k ∧ (o = [0x7B, 0x7B] ∨ o = [0x7B, 0x7B, 0x7B]) := by
  unfold openingLength? at h
  split at h
  next r => cases h; exact ⟨[0x7B, 0x7B, 0x7B], r, rfl, rfl, .inr rfl⟩
  next r _ => cases h; exact ⟨[0x7B, 0x7B], r, rfl, rfl, .inl rfl⟩
  next => cases h

theorem exists_of_closingLength? {s : Bytes} {k : Nat} (h : closingLength? s = some k) :
    ∃ o r, s = o ++ r ∧ o.length = k ∧ (o = [0x7D, 0x7D] ∨ o = [0x7D, 0x7D, 0x7D]) := by
  unfold closingLength? at h
  split at h
  next r => cases h; exact ⟨[0x7D, 0x7D, 0x7D], r, rfl, rfl, .inr rfl⟩
  next r _ => cases h; exact ⟨[0x7D, 0x7D], r, rfl, rfl, .inl rfl⟩
  next => cases h

theorem length?_of_opening {side : Side} {name s : Bytes} {k : Nat}
    (h : openingLength? s = some k) :
    length? side name s = match Text.dropBlanks (s.drop k) with
      | [] => none
      | sign :: t =>
        if sign == side.sign && name.isPrefixOf t then
          (closingLength? ((t.drop name.length).drop (tailLength side (t.drop name.length)))).map
            fun closing => k + Text.blankLength (s.drop k) + 1 + name.length +
              tailLength side (t.drop name.length) + closing
        else none := by
  rw [length?, h]
  simp only
  rw [← List.drop_drop]
  rfl

theorem sign_lt (side : Side) : side.sign.toNat < 0x80 := by
  cases side <;> decide

theorem sign_not_blank (side : Side) : Text.isBlank (Utf8.asciiChar side.sign) = false := by
  cases side <;> decide

theorem brace_not_mem_blanks {cs : List Char} (h : ∀ c ∈ cs, Text.isBlank c = true) {b : UInt8}
    (hb : b = 0x7B ∨ b = 0x7D) : b ∉ Utf8.encode cs := by
  intro h1
  have hl : b.toNat < 0x80 := by rcases hb with rfl | rfl <;> decide
  have h2 := h _ ((Utf8.mem_encode_iff hl).1 h1)
  rcases hb with rfl | rfl
  · exact absurd h2 (by decide)
  · exact absurd h2 (by decide)

/-- What may stand between the name and the closing braces holds no brace that closes. -/
theorem exists_tail (side : Side) (s : Bytes) :
    ∃ tail r, s = tail ++ r ∧ 0x7D ∉ tail ∧ tailLength side s = tail.length := by
  cases side with
  | closer =>
    obtain ⟨cs, r, h1, h2, h3, -⟩ := Text.exists_blanks s
    exact ⟨Utf8.encode cs, r, h1, brace_not_mem_blanks h2 (.inr rfl), h3⟩
  | opener =>
    obtain ⟨cs, r, h1, h2, h3⟩ := exists_interior s
    have h4 : 0x7D ∉ Utf8.encode cs := fun h => h2 ((Utf8.mem_encode_iff (by decide)).1 h)
    unfold tailLength
    simp only
    cases hc : Utf8.char? s with
    | none => exact ⟨[], s, rfl, by simp, rfl⟩
    | some p =>
      cases hb : Text.isBlank p.1 with
      | false => exact ⟨[], s, rfl, by simp, by simp [hb]⟩
      | true => exact ⟨Utf8.encode cs, r, h1, h4, by simp [hb, h3]⟩

/-- The name of a delimiter stands between runs of text without a closing brace, and two or three
closing braces end it. -/
theorem exists_parts {side : Side} {name s : Bytes} {k : Nat} (h : length? side name s = some k) :
    ∃ lead tail close r, s = lead ++ (name ++ (tail ++ (close ++ r))) ∧ 0x7D ∉ lead ∧ 0x7D ∉ tail ∧
      (close = [0x7D, 0x7D] ∨ close = [0x7D, 0x7D, 0x7D]) ∧
      k = lead.length + name.length + tail.length + close.length ∧
      ∃ t, lead = 0x7B :: 0x7B :: t := by
  cases ho : openingLength? s with
  | none => rw [length?, ho] at h; cases h
  | some i =>
    obtain ⟨o, s, rfl, hl, h1⟩ := exists_of_openingLength? ho
    rw [length?_of_opening ho, ← hl, List.drop_left] at h
    obtain ⟨cs, r, rfl, h2, h3, -⟩ := Text.exists_blanks s
    rw [Text.dropBlanks, h3, List.drop_left] at h
    cases r with
    | nil => cases h
    | cons sign t =>
      simp only at h
      split at h
      next h4 =>
        rw [Bool.and_eq_true, beq_iff_eq, List.isPrefixOf_iff_prefix] at h4
        obtain ⟨rfl, t, rfl⟩ := h4
        rw [List.drop_left] at h
        obtain ⟨tail, t, rfl, h5, h6⟩ := exists_tail side t
        rw [h6, List.drop_left] at h
        obtain ⟨j, hj, rfl⟩ := Option.map_eq_some_iff.1 h
        obtain ⟨close, t, rfl, hc, h7⟩ := exists_of_closingLength? hj
        refine ⟨o ++ (Utf8.encode cs ++ [side.sign]), tail, close, t, by simp, ?_, h5, h7, ?_, ?_⟩
        · have h8 : 0x7D ∉ o := by rcases h1 with rfl | rfl <;> decide
          have h9 : (0x7D : UInt8) ≠ side.sign := by cases side <;> decide
          have h10 := brace_not_mem_blanks h2 (b := 0x7D) (.inr rfl)
          simp only [List.mem_append, List.mem_singleton, not_or]
          exact ⟨h8, h10, h9⟩
        · simp only [List.length_append, List.length_cons, List.length_nil]
          omega
        · rcases h1 with rfl | rfl <;> exact ⟨_, rfl⟩
      next => cases h

/-- A delimiter is a run of text without a closing brace, and two or three closing braces. -/
theorem exists_of_length? {side : Side} {name s : Bytes} {k : Nat} (hn : 0x7D ∉ name)
    (h : length? side name s = some k) :
    ∃ body close r, s = body ++ (close ++ r) ∧ 0x7D ∉ body ∧
      (close = [0x7D, 0x7D] ∨ close = [0x7D, 0x7D, 0x7D]) ∧ k = body.length + close.length ∧
      ∃ t, body = 0x7B :: 0x7B :: t := by
  obtain ⟨lead, tail, close, r, rfl, h1, h2, h3, rfl, t, rfl⟩ := exists_parts h
  refine ⟨0x7B :: 0x7B :: t ++ (name ++ tail), close, r, by simp, ?_, h3, ?_, _, rfl⟩
  · simp only [List.mem_append, not_or]
    exact ⟨h1, hn, h2⟩
  · simp only [List.length_append]
    omega

theorem length?_le_length {side : Side} {name s : Bytes} {k : Nat}
    (h : length? side name s = some k) : k ≤ s.length := by
  obtain ⟨lead, tail, close, r, rfl, -, -, -, rfl, -⟩ := exists_parts h
  simp only [List.length_append]
  omega

theorem exists_of_not_mem {b : UInt8} {body v x y : Bytes} (hb : b ∉ body)
    (h : body ++ x = v ++ b :: y) : ∃ w, v = body ++ w ∧ x = w ++ b :: y := by
  rcases List.append_eq_append_iff.1 h with ⟨w, h1, h2⟩ | ⟨w, h1, h2⟩
  · exact ⟨w, h1, h2⟩
  · cases w with
    | nil => exact ⟨[], by simpa using h1.symm, by simpa using h2.symm⟩
    | cons c w =>
      obtain ⟨rfl, -⟩ := List.cons.inj h2
      exact absurd (by rw [h1]; simp) hb

/-- A match that starts before closing braces ends with them at the latest, but for one more. -/
theorem length?_le {side : Side} {name v s : Bytes} {k : Nat} (hn : 0x7D ∉ name)
    (h : length? side name (v ++ Tag.closeMark ++ s) = some k) :
    k ≤ (v ++ Tag.closeMark).length ∨
      k = (v ++ Tag.closeMark).length + 1 ∧ s.head? = some 0x7D := by
  obtain ⟨body, close, r, h1, h2, h3, rfl, -⟩ := exists_of_length? hn h
  rw [List.append_assoc] at h1
  obtain ⟨w, rfl, h4⟩ := exists_of_not_mem h2 h1.symm
  have hlen : (body ++ w ++ Tag.closeMark).length = body.length + w.length + 2 := by
    rw [List.length_append, List.length_append]
    rfl
  have hclose : close.length ≤ 3 := by rcases h3 with rfl | rfl <;> decide
  cases w with
  | nil =>
    rcases h3 with rfl | rfl
    · left
      rw [hlen]
      simp
    · right
      rw [hlen]
      have h5 : [0x7D, 0x7D, 0x7D] ++ r = [0x7D, 0x7D] ++ s := h4
      obtain rfl : 0x7D :: r = s := by simpa using h5
      exact ⟨rfl, rfl⟩
  | cons c w =>
    left
    rw [hlen, List.length_cons]
    omega

/-! ## Heads -/

/-- Whether opening braces, blanks and the sign of one side start a text. -/
def isHead (s : Bytes) : Bool :=
  match openingLength? s with
  | none => false
  | some k =>
    match Text.dropBlanks (s.drop k) with
    | [] => false
    | sign :: _ => sign == Side.opener.sign || sign == Side.closer.sign

theorem length?_of_not_head {side : Side} {name s : Bytes} (h : isHead s = false) :
    length? side name s = none := by
  cases ho : openingLength? s with
  | none => rw [length?, ho]
  | some k =>
    rw [length?_of_opening ho]
    simp only [isHead, ho] at h
    cases hd : Text.dropBlanks (s.drop k) with
    | nil => rfl
    | cons sign t =>
      simp only [hd, Bool.or_eq_false_iff, beq_eq_false_iff_ne] at h
      have h1 : (sign == side.sign) = false := by
        cases side with
        | opener => exact beq_false_of_ne h.1
        | closer => exact beq_false_of_ne h.2
      simp [h1]

theorem isHead_of_ne {b : UInt8} (hb : b ≠ 0x7B) (s : Bytes) : isHead (b :: s) = false := by
  have h : openingLength? (b :: s) = none := by
    unfold openingLength?
    split
    next h => cases h; exact absurd rfl hb
    next h => cases h; exact absurd rfl hb
    next => rfl
  rw [isHead, h]

theorem blankLength_append_brace (v z : Bytes) :
    Text.blankLength (v ++ 0x7D :: z) = Text.blankLength v := by
  obtain ⟨cs, r, rfl, h1, h2, h3⟩ := Text.exists_blanks v
  have h4 : Text.blankLength (r ++ 0x7D :: z) = 0 := by
    refine Text.blankLength_eq_zero_iff.2 fun c t h => ?_
    by_cases hc : 0x7D ∈ Utf8.encodeChar c
    · obtain ⟨-, rfl⟩ := Utf8.encodeChar_of_mem hc (by decide)
      decide
    · obtain ⟨w, rfl, -⟩ := exists_of_not_mem hc (Utf8.eq_of_char? h).symm
      exact Text.blankLength_eq_zero_iff.1 h3 c w (Utf8.char?_encodeChar_append c w)
  rw [List.append_assoc, Text.blankLength_encode_append h1, h4, h2, Nat.add_zero]

theorem dropBlanks_append_brace (v z : Bytes) :
    Text.dropBlanks (v ++ 0x7D :: z) = Text.dropBlanks v ++ 0x7D :: z := by
  rw [Text.dropBlanks, Text.dropBlanks, blankLength_append_brace,
    List.drop_append_of_le_length (Text.blankLength_le v)]

theorem openingLength?_cons_cons (a b : UInt8) (r : Bytes) :
    openingLength? (a :: b :: r) =
      if a = 0x7B ∧ b = 0x7B then some (if r.head? = some 0x7B then 3 else 2) else none := by
  unfold openingLength?
  split
  next h => cases h; rfl
  next h1 h2 =>
    cases h2
    have h3 : r.head? ≠ some 0x7B := fun h => by
      obtain ⟨t, rfl⟩ := List.head?_eq_some_iff.1 h
      exact h1 t rfl
    rw [if_pos ⟨rfl, rfl⟩, if_neg h3]
  next h1 => rw [if_neg fun h => h1 r (by rw [h.1, h.2])]

theorem openingLength?_append_brace (v z : Bytes) :
    openingLength? (v ++ 0x7D :: z) = openingLength? v := by
  match v with
  | [] => rfl
  | [a] => simp [openingLength?]
  | [a, b] =>
    rw [List.cons_append, List.cons_append, openingLength?_cons_cons, openingLength?_cons_cons]
    rfl
  | a :: b :: c :: v =>
    rw [List.cons_append, List.cons_append, openingLength?_cons_cons, openingLength?_cons_cons]
    rfl

theorem isHead_append_brace (v z : Bytes) : isHead (v ++ 0x7D :: z) = isHead v := by
  unfold isHead
  rw [openingLength?_append_brace]
  cases ho : openingLength? v with
  | none => rfl
  | some k =>
    obtain ⟨o, r, rfl, rfl, -⟩ := exists_of_openingLength? ho
    simp only [List.append_assoc, List.drop_left, dropBlanks_append_brace]
    cases Text.dropBlanks r with
    | nil => rfl
    | cons sign t => rfl

/-! ## Tags that delimit a block -/

/-- Characters that a name may have: none is blank, and none closes a tag. -/
def Word (name : Bytes) : Prop :=
  ∃ cs, name = Utf8.encode cs ∧ ∀ c ∈ cs, Text.isBlank c = false ∧ c ≠ '\x7d'

/-- What may follow the name of a delimiter. -/
def Tail (side : Side) (tail : Bytes) : Prop :=
  ∃ cs, tail = Utf8.encode cs ∧ '\x7d' ∉ cs ∧ (∀ c ∈ cs.head?, Text.isBlank c = true) ∧
    (side = .closer → ∀ c ∈ cs, Text.isBlank c = true)

/-- The interior of a tag: a third brace perhaps, blanks, the sign, the name and what may follow. -/
def Spells (side : Side) (name interior : Bytes) : Prop :=
  ∃ o cs tail, (o = [] ∨ o = [0x7B]) ∧ (∀ c ∈ cs, Text.isBlank c = true) ∧ Tail side tail ∧
    interior = o ++ (Utf8.encode cs ++ side.sign :: (name ++ tail))

theorem Word.brace_not_mem {name : Bytes} (h : Word name) : 0x7D ∉ name := by
  obtain ⟨cs, rfl, h1⟩ := h
  intro h2
  exact (h1 _ ((Utf8.mem_encode_iff (by decide)).1 h2)).2 rfl

/-- One if a closing brace starts the text. -/
def spill (z : Bytes) : Nat := if z.head? = some 0x7D then 1 else 0

theorem closingLength?_closeMark (z : Bytes) :
    closingLength? (Tag.closeMark ++ z) = some (2 + spill z) := by
  unfold spill
  cases z with
  | nil => rfl
  | cons b z =>
    by_cases hb : b = 0x7D
    · subst hb
      rfl
    · simp [closingLength?, Tag.closeMark, hb]

theorem length?_signed (side : Side) (name t : Bytes) {o : Bytes} {sign : UInt8} {cs : List Char}
    (ho : o = [] ∨ o = [0x7B]) (hcs : ∀ c ∈ cs, Text.isBlank c = true)
    (hs : ∃ side' : Side, sign = side'.sign) :
    length? side name (Tag.openMark ++ (o ++ (Utf8.encode cs ++ sign :: t))) =
      if sign == side.sign && name.isPrefixOf t then
        (closingLength? ((t.drop name.length).drop (tailLength side (t.drop name.length)))).map
          fun closing => 2 + o.length + (Utf8.encode cs).length + 1 + name.length +
            tailLength side (t.drop name.length) + closing
      else none := by
  obtain ⟨side', rfl⟩ := hs
  have h1 : ∃ y ys, Utf8.encode cs ++ side'.sign :: t = y :: ys ∧ y ≠ 0x7B := by
    cases hb : Utf8.encode cs with
    | nil => exact ⟨_, _, rfl, by cases side' <;> decide⟩
    | cons y ys =>
      refine ⟨y, _, rfl, ?_⟩
      rintro rfl
      exact brace_not_mem_blanks hcs (.inl rfl) (by rw [hb]; simp)
  have h2 : openingLength? (Tag.openMark ++ (o ++ (Utf8.encode cs ++ side'.sign :: t))) =
      some (Tag.openMark ++ o).length := by
    obtain ⟨y, ys, h3, h4⟩ := h1
    rw [h3]
    rcases ho with rfl | rfl
    · simp [openingLength?, Tag.openMark, h4]
    · simp [openingLength?, Tag.openMark]
  have h3 := Text.blankLength_encode_append hcs (side'.sign :: t)
  rw [Text.blankLength_ascii (sign_lt side') (sign_not_blank side'), Nat.add_zero] at h3
  rw [length?_of_opening h2, ← List.append_assoc, List.drop_left, Text.dropBlanks, h3,
    List.drop_left, List.length_append]
  rfl

theorem tailLength_of_tail {side : Side} {tail : Bytes} (h : Tail side tail) (z : Bytes) :
    tailLength side (tail ++ (Tag.closeMark ++ z)) = tail.length := by
  obtain ⟨cs, rfl, h1, h2, h3⟩ := h
  have e : Tag.closeMark ++ z = 0x7D :: ([0x7D] ++ z) := rfl
  cases side with
  | closer =>
    rw [tailLength, Text.blankLength_encode_append (h3 rfl), e,
      Text.blankLength_ascii (by decide) (by decide), Nat.add_zero]
  | opener =>
    have h4 := interiorLength_encode_append h1 ([0x7D] ++ z)
    cases cs with
    | nil =>
      rw [Utf8.encode_nil, List.nil_append, e]
      rfl
    | cons c cs =>
      have h5 : Text.isBlank c = true := h2 c rfl
      simp only [tailLength, Utf8.encode_cons, List.append_assoc,
        Utf8.char?_encodeChar_append, h5, if_true]
      rw [e, ← List.append_assoc, ← Utf8.encode_cons, h4]

/-- The patterns find the delimiter that a tag spells. -/
theorem length?_of_spells {side : Side} {name interior : Bytes} (h : Spells side name interior)
    (z : Bytes) :
    length? side name (Tag.braced interior ++ z) =
      some ((Tag.braced interior).length + spill z) := by
  obtain ⟨o, cs, tail, ho, hcs, ht, rfl⟩ := h
  have h1 := length?_signed side name (name ++ (tail ++ (Tag.closeMark ++ z))) ho hcs ⟨side, rfl⟩
  rw [List.drop_left, tailLength_of_tail ht, List.drop_left, closingLength?_closeMark] at h1
  have h2 : (side.sign == side.sign && name.isPrefixOf (name ++ (tail ++ (Tag.closeMark ++ z)))) =
      true := by
    rw [beq_self_eq_true, Bool.true_and, List.isPrefixOf_iff_prefix]
    exact List.prefix_append _ _
  rw [if_pos h2, Option.map_some] at h1
  simp only [Tag.braced_append, Tag.length_braced, List.append_assoc, List.cons_append] at h1 ⊢
  rw [h1]
  simp only [List.length_append, List.length_cons, Option.some.injEq]
  omega

theorem closingLength?_of_ne {b : UInt8} (hb : b ≠ 0x7D) (s : Bytes) :
    closingLength? (b :: s) = none := by
  unfold closingLength?
  split
  next h => cases h; exact absurd rfl hb
  next h => cases h; exact absurd rfl hb
  next => rfl

/-- No closing braces follow a name that goes on. -/
theorem closingLength?_drop_tail {c : Char} (hb : Text.isBlank c = false) (hc : c ≠ '\x7d')
    (side : Side) (r : Bytes) :
    closingLength? ((Utf8.encodeChar c ++ r).drop (tailLength side (Utf8.encodeChar c ++ r))) =
      none := by
  have h1 : tailLength side (Utf8.encodeChar c ++ r) = 0 := by
    cases side with
    | closer => exact Text.blankLength_char hb r
    | opener => simp [tailLength, Utf8.char?_encodeChar_append, hb]
  rw [h1, List.drop_zero]
  cases he : Utf8.encodeChar c with
  | nil => exact absurd he (Utf8.encodeChar_ne_nil c)
  | cons b s =>
    refine closingLength?_of_ne ?_ _
    rintro rfl
    obtain ⟨-, h2⟩ := Utf8.encodeChar_of_mem (c := c) (b := 0x7D) (by rw [he]; simp) (by decide)
    exact hc h2

/-- The patterns find no delimiter of another block, nor one of the other side. -/
theorem length?_of_spells_ne {side side' : Side} {name name' interior : Bytes}
    (h : Spells side name interior) (hw : Word name) (hw' : Word name')
    (hne : side = side' → name ≠ name') (z : Bytes) :
    length? side' name' (Tag.braced interior ++ z) = none := by
  obtain ⟨o, cs, tail, ho, hcs, ⟨ts, rfl, ht1, ht2, -⟩, rfl⟩ := h
  have h1 := length?_signed side' name' (name ++ (Utf8.encode ts ++ (Tag.closeMark ++ z))) ho hcs
    ⟨side, rfl⟩
  simp only [Tag.braced_append, List.append_assoc, List.cons_append] at h1 ⊢
  rw [h1]
  split
  next h2 =>
    rw [Bool.and_eq_true, beq_iff_eq, List.isPrefixOf_iff_prefix] at h2
    obtain ⟨h2, x, h3⟩ := h2
    have h4 : side = side' := by
      cases side <;> cases side' <;> first | rfl | exact absurd h2 (by decide)
    obtain ⟨ns, rfl, hns⟩ := hw
    obtain ⟨ms, rfl, hms⟩ := hw'
    have h5 : ns ≠ ms := fun h => hne h4 (by rw [h])
    rw [← h3, List.drop_left, Option.map_eq_none_iff]
    -- one of the two names goes on where the other one ends
    rcases Utf8.prefix_or_prefix h3 with ⟨es, rfl, rfl⟩ | ⟨es, rfl, h6⟩
    · cases es with
      | nil => simp at h5
      | cons e es =>
        obtain ⟨h7, h8⟩ := hns e (by simp)
        rw [Utf8.encode_cons, List.append_assoc]
        exact closingLength?_drop_tail h7 h8 side' _
    · cases es with
      | nil => simp at h5
      | cons e es =>
        obtain ⟨h7, h8⟩ := hms e (by simp)
        rw [Utf8.encode_cons, List.append_assoc] at h6
        exfalso
        cases ts with
        | nil =>
          have h9 := Utf8.char?_encodeChar_append e (Utf8.encode es ++ x)
          have h10 : Tag.closeMark ++ z = 0x7D :: ([0x7D] ++ z) := rfl
          rw [← h6, Utf8.encode_nil, List.nil_append, h10, Utf8.char?_cons (by decide),
            Option.some.injEq, Prod.mk.injEq] at h9
          exact h8 (h9.1.symm.trans (by decide))
        | cons t ts =>
          rw [Utf8.encode_cons, List.append_assoc] at h6
          obtain ⟨rfl, -⟩ := Utf8.encodeChar_append_inj h6
          rw [ht2 t rfl] at h7
          cases h7
  next => rfl

/-! ## Tags as parts of a text -/

/-- No delimiter starts in the text. -/
def Headless (s : Bytes) : Prop := ∀ u ∈ s.tails, isHead u = false

instance (s : Bytes) : Decidable (Headless s) := by unfold Headless; infer_instance

theorem length?_of_brace (side : Side) (name t : Bytes) : length? side name (0x7D :: t) = none :=
  length?_of_not_head (isHead_of_ne (by decide) t)

theorem nowhere_of_headless {side : Side} {name interior : Bytes} (h : Headless interior)
    (z : Bytes) : Bytes.Nowhere (fun t => (length? side name t).isSome)
      (interior ++ Tag.closeMark) z := by
  refine Bytes.nowhere_append.2 ⟨fun u hu hne => ?_, ?_⟩
  · rw [Option.not_isSome_iff_eq_none]
    refine length?_of_not_head ?_
    have e : u ++ (Tag.closeMark ++ z) = u ++ 0x7D :: ([0x7D] ++ z) := rfl
    rw [e, isHead_append_brace]
    exact h u ((List.mem_tails _ _).2 hu)
  · refine Bytes.nowhere_cons.2 ⟨?_, Bytes.nowhere_cons.2 ⟨?_, Bytes.Nowhere.nil _ _⟩⟩
    · rw [length?_of_brace]
      simp
    · rw [length?_of_brace]
      simp

/-- A third opening brace is part of the match. -/
theorem length?_cons_brace {side : Side} {name : Bytes} {r : Bytes} (hr : r.head? ≠ some 0x7B) :
    length? side name (0x7B :: 0x7B :: 0x7B :: r) =
      (length? side name (0x7B :: 0x7B :: r)).map (· + 1) := by
  have h1 : openingLength? (0x7B :: 0x7B :: 0x7B :: r) = some 3 := rfl
  have h2 : openingLength? (0x7B :: 0x7B :: r) = some 2 := by
    rw [openingLength?_cons_cons, if_pos ⟨rfl, rfl⟩, if_neg hr]
  have e1 : (0x7B :: 0x7B :: 0x7B :: r).drop 3 = r := rfl
  have e2 : (0x7B :: 0x7B :: r).drop 2 = r := rfl
  rw [length?_of_opening h1, length?_of_opening h2, e1, e2]
  cases Text.dropBlanks r with
  | nil => rfl
  | cons sign t =>
    simp only
    split
    · rw [Option.map_map]
      congr 1
      funext closing
      simp only [Function.comp_apply]
      omega
    · rfl

theorem head?_ne_of_isHead {r : Bytes} (h : isHead (0x7B :: 0x7B :: 0x7B :: r) = true) :
    r.head? ≠ some 0x7B := by
  intro h1
  obtain ⟨t, rfl⟩ := List.head?_eq_some_iff.1 h1
  have h2 : openingLength? (0x7B :: 0x7B :: 0x7B :: 0x7B :: t) = some 3 := rfl
  have h3 : (0x7B :: 0x7B :: 0x7B :: 0x7B :: t).drop 3 = 0x7B :: t := rfl
  have h4 : Text.dropBlanks (0x7B :: t) = 0x7B :: t :=
    Text.dropBlanks_ascii (by decide) (by decide) t
  simp only [isHead, h2, h3, h4] at h
  cases h

theorem isHead_cons_brace {r : Bytes} (hr : r.head? ≠ some 0x7B) :
    isHead (0x7B :: 0x7B :: 0x7B :: r) = isHead (0x7B :: 0x7B :: r) := by
  have h1 : openingLength? (0x7B :: 0x7B :: 0x7B :: r) = some 3 := rfl
  have h2 : openingLength? (0x7B :: 0x7B :: r) = some 2 := by
    rw [openingLength?_cons_cons, if_pos ⟨rfl, rfl⟩, if_neg hr]
  simp only [isHead, h1, h2]
  rfl

/-- A tag that is no delimiter itself and holds no head has no delimiter anywhere. -/
theorem nowhere_of_none {side : Side} {name interior z : Bytes} (h : Headless interior)
    (h0 : length? side name (Tag.braced interior ++ z) = none) :
    Bytes.Nowhere (fun t => (length? side name t).isSome)
      (Tag.braced interior) z := by
  have h1 : length? side name (0x7B :: (interior ++ Tag.closeMark ++ z)) = none := by
    cases hi : interior ++ Tag.closeMark ++ z with
    | nil => rfl
    | cons b r =>
      by_cases hb : b = 0x7B
      · subst hb
        by_cases hr : r.head? = some 0x7B
        · -- a third brace and a fourth one: the head would stand in the interior
          obtain ⟨r, rfl⟩ := List.head?_eq_some_iff.1 hr
          refine length?_of_not_head (Bool.eq_false_iff.2 fun h2 => ?_)
          rw [isHead_cons_brace (head?_ne_of_isHead h2), ← hi] at h2
          have e : interior ++ Tag.closeMark ++ z = interior ++ 0x7D :: ([0x7D] ++ z) := by
            simp [Tag.closeMark]
          rw [e, isHead_append_brace, h interior (by simp)] at h2
          cases h2
        · have e : Tag.braced interior ++ z = 0x7B :: 0x7B :: 0x7B :: r := by
            rw [Tag.braced_append, hi]
            rfl
          rwa [e, length?_cons_brace hr, Option.map_eq_none_iff] at h0
      · have h2 : openingLength? (0x7B :: b :: r) = none := by
          rw [openingLength?_cons_cons, if_neg fun h => hb h.2]
        rw [length?, h2]
  rw [Tag.braced, List.append_assoc]
  refine Bytes.nowhere_cons.2 ⟨?_, Bytes.nowhere_cons.2 ⟨?_, nowhere_of_headless h z⟩⟩
  · rw [Option.not_isSome_iff_eq_none]
    exact h0
  · rw [Option.not_isSome_iff_eq_none]
    exact h1

theorem spansFrom_tag {side : Side} {name interior z : Bytes} (h : Headless interior)
    (h0 : length? side name (Tag.braced interior ++ z) = none)
    (offset : Nat) :
    spansFrom (length? side name) offset 0 (Tag.braced interior ++ z) =
      spansFrom (length? side name) (offset + (Tag.braced interior).length) 0
        z := spansFrom_append (nowhere_of_none h h0)

theorem spansFrom_delimiter {side : Side} {name interior : Bytes} (h : Spells side name interior)
    (z : Bytes) (offset : Nat) :
    spansFrom (length? side name) offset 0 (Tag.braced interior ++ z) =
      ⟨offset, offset + ((Tag.braced interior).length + spill z)⟩ ::
        spansFrom (length? side name)
          (offset + (Tag.braced interior).length) 0 z := by
  have h1 := length?_of_spells h z
  have h2 : Tag.braced interior ++ z ≠ [] := by simp [Tag.braced, Tag.openMark]
  rw [spansFrom_of_some h1 (by rw [Tag.length_braced]; omega) h2, ← List.drop_drop, List.drop_left]
  unfold spill
  split
  next h3 =>
    obtain ⟨t, rfl⟩ := List.head?_eq_some_iff.1 h3
    rw [spansFrom_of_none (length?_of_brace side name t)]
    rfl
  next => rfl

end ThemeTemplates.Delimiter
