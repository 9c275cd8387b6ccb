import ThemeTemplates.Block.Delimiter

/-! # Characters and single bytes

The patterns of delimiters run over characters, the scanner of tags over bytes. Both see the same
ASCII bytes: such a byte is nowhere part of a longer encoding (`encodeChar_of_mem`), so it is in an
encoded text just when its character is in the text (`mem_encode_iff`).

From this come the lengths of the runs that a delimiter may hold: `blankLength_encode_append` for
blanks and `interiorLength_encode_append` for the text before a closing brace.
-/

namespace ThemeTemplates

set_option autoImplicit false

namespace Utf8

/-! ## ASCII bytes of an encoding -/

/-- The character of an ASCII byte. -/
def asciiChar (b : UInt8) : Char := Char.ofNat b.toNat

theorem encodeChar_of_mem {c : Char} {b : UInt8} (h : b ∈ encodeChar c) (hb : b.toNat < 0x80) :
    encodeChar c = [b] ∧ c = asciiChar b := by
  have h0 := val_toNat_lt c
  obtain ⟨n, hn⟩ : ∃ n, n = c.val.toNat := ⟨_, rfl⟩
  rw [← hn] at h0
  simp only [encodeChar, String.utf8EncodeChar, ← hn] at h ⊢
  split at h
  next h1 =>
    rw [if_pos h1]
    obtain rfl := List.mem_singleton.1 h
    refine ⟨rfl, ?_⟩
    rw [asciiChar, toNat_byte (by omega), hn]
    exact (Char.ofNat_toNat c).symm
  -- the bytes of a longer encoding all have their first bit set
  next h1 =>
    exfalso
    split at h
    · simp only [List.mem_cons, List.not_mem_nil, or_false] at h
      rcases h with rfl | rfl <;> rw [toNat_byte (by omega)] at hb <;> omega
    · split at h
      · simp only [List.mem_cons, List.not_mem_nil, or_false] at h
        rcases h with rfl | rfl | rfl <;> rw [toNat_byte (by omega)] at hb <;> omega
      · simp only [List.mem_cons, List.not_mem_nil, or_false] at h
        rcases h with rfl | rfl | rfl | rfl <;> rw [toNat_byte (by omega)] at hb <;> omega

theorem encodeChar_asciiChar {b : UInt8} (hb : b.toNat < 0x80) : encodeChar (asciiChar b) = [b] := by
  have h1 : (asciiChar b).val.toNat = b.toNat := by
    have h2 : b.toNat.isValidChar := .inl (by omega)
    rw [asciiChar, Char.ofNat, dif_pos h2]
    rfl
  simp only [encodeChar, String.utf8EncodeChar, h1]
  rw [if_pos (by omega), UInt8.ofNat_toNat]

/-- Another ASCII character does not start with this byte. -/
theorem ne_of_encodeChar {c : Char} {b d : UInt8} {r : Bytes} (h : encodeChar c = b :: r)
    (hd : d.toNat < 0x80) (hc : c ≠ asciiChar d) : b ≠ d := by
  rintro rfl
  exact hc (encodeChar_of_mem (by rw [h]; exact List.mem_cons_self) hd).2

@[simp] theorem encode_nil : encode [] = [] := rfl

@[simp] theorem encode_cons (c : Char) (cs : List Char) :
    encode (c :: cs) = encodeChar c ++ encode cs := rfl

@[simp] theorem encode_append (cs ds : List Char) : encode (cs ++ ds) = encode cs ++ encode ds :=
  List.flatMap_append

theorem mem_encode_iff {cs : List Char} {b : UInt8} (hb : b.toNat < 0x80) :
    b ∈ encode cs ↔ asciiChar b ∈ cs := by
  rw [encode, List.mem_flatMap]
  constructor
  · rintro ⟨c, hc, h⟩
    obtain ⟨-, rfl⟩ := encodeChar_of_mem h hb
    exact hc
  · intro h
    exact ⟨asciiChar b, h, by rw [encodeChar_asciiChar hb]; exact List.mem_singleton_self b⟩

/-- An encoded text is split at an ASCII byte as its characters are. -/
theorem exists_of_encode_eq {cs : List Char} {b : UInt8} (hb : b.toNat < 0x80) {u r : Bytes}
    (h : encode cs = u ++ b :: r) :
    ∃ ds es, cs = ds ++ asciiChar b :: es ∧ u = encode ds ∧ r = encode es := by
  induction cs generalizing u with
  | nil => simp at h
  | cons c cs ih =>
    rw [encode_cons] at h
    rcases List.append_eq_append_iff.1 h with ⟨v, rfl, h1⟩ | ⟨v, h1, h2⟩
    · obtain ⟨ds, es, rfl, rfl, rfl⟩ := ih h1
      exact ⟨c :: ds, es, rfl, rfl, rfl⟩
    · cases v with
      | nil =>
        obtain ⟨ds, es, rfl, hd, rfl⟩ := ih (u := []) h2.symm
        rw [List.append_nil] at h1
        refine ⟨c :: ds, es, rfl, ?_, rfl⟩
        rw [encode_cons, ← hd, List.append_nil, h1]
      | cons x v =>
        obtain ⟨rfl, rfl⟩ := List.cons.inj h2
        obtain ⟨h3, rfl⟩ := encodeChar_of_mem (by rw [h1]; simp) hb
        rw [h3] at h1
        obtain ⟨rfl, h4⟩ := List.append_eq_singleton_iff.1 h1.symm |>.resolve_right (by simp)
        obtain rfl : v = [] := (List.cons.inj h4).2
        exact ⟨[], cs, rfl, rfl, rfl⟩

theorem encodeChar_append_inj {c d : Char} {r s : Bytes}
    (h : encodeChar c ++ r = encodeChar d ++ s) : c = d ∧ r = s := by
  have h1 := char?_encodeChar_append c r
  rw [h, char?_encodeChar_append, Option.some.injEq, Prod.mk.injEq] at h1
  exact ⟨h1.1.symm, h1.2.symm⟩

/-- Of two encoded texts that start one text, one starts the other. -/
theorem prefix_or_prefix {cs ds : List Char} {r s : Bytes} (h : encode cs ++ r = encode ds ++ s) :
    (∃ es, ds = cs ++ es ∧ r = encode es ++ s) ∨ ∃ es, cs = ds ++ es ∧ s = encode es ++ r := by
  induction cs generalizing ds with
  | nil => exact .inl ⟨ds, rfl, h⟩
  | cons c cs ih =>
    cases ds with
    | nil => exact .inr ⟨c :: cs, rfl, h.symm⟩
    | cons d ds =>
      rw [encode_cons, encode_cons, List.append_assoc, List.append_assoc] at h
      obtain ⟨rfl, h1⟩ := encodeChar_append_inj h
      rcases ih h1 with ⟨es, rfl, h2⟩ | ⟨es, rfl, h2⟩
      · exact .inl ⟨es, rfl, h2⟩
      · exact .inr ⟨es, rfl, h2⟩

theorem encode_injective {cs ds : List Char} (h : encode cs = encode ds) : cs = ds := by
  rw [← decode_encode cs, h, decode_encode]

theorem char?_cons {b : UInt8} (hb : b.toNat < 0x80) (r : Bytes) :
    char? (b :: r) = some (asciiChar b, r) := by
  have h := char?_encodeChar_append (asciiChar b) r
  rwa [encodeChar_asciiChar hb] at h

/-- A character that starts before an ASCII byte ends before it. -/
theorem char?_append_ascii {b : UInt8} (hb : b.toNat < 0x80) {v : Bytes} (hv : v ≠ []) (z : Bytes) :
    char? (v ++ b :: z) = (char? v).map fun p => (p.1, p.2 ++ b :: z) := by
  cases h : char? v with
  | some p =>
    obtain ⟨c, r⟩ := p
    rw [eq_of_char? h, List.append_assoc, char?_encodeChar_append]
    rfl
  | none =>
    cases h1 : char? (v ++ b :: z) with
    | none => rfl
    | some p =>
      exfalso
      obtain ⟨c, r⟩ := p
      have e := eq_of_char? h1
      by_cases hc : b ∈ encodeChar c
      · -- the byte is a character by itself, so it would start `v`
        obtain ⟨e1, -⟩ := encodeChar_of_mem hc hb
        cases v with
        | nil => exact hv rfl
        | cons a v =>
          rw [e1, List.cons_append, List.singleton_append, List.cons.injEq] at e
          rw [e.1, char?_cons hb] at h
          cases h
      · obtain ⟨w, rfl⟩ : ∃ w, v = encodeChar c ++ w := by
          rcases List.append_eq_append_iff.1 e with ⟨w, h2, h3⟩ | ⟨w, h2, -⟩
          · cases w with
            | nil => exact ⟨[], by simpa using h2.symm⟩
            | cons a w =>
              obtain ⟨rfl, -⟩ := List.cons.inj h3
              exact absurd (by rw [h2]; simp) hc
          · exact ⟨w, h2⟩
        rw [char?_encodeChar_append] at h
        cases h

/-- The first byte of an encoding is ASCII or has its first two bits set, and no other byte does. -/
theorem bytes_encodeChar (c : Char) :
    (∀ b ∈ (encodeChar c).head?, b.toNat < 0x80 ∨ 0xC0 ≤ b.toNat) ∧
      ∀ b ∈ (encodeChar c).tail, 0x80 ≤ b.toNat ∧ b.toNat < 0xC0 := by
  have h0 := val_toNat_lt c
  obtain ⟨n, hn⟩ : ∃ n, n = c.val.toNat := ⟨_, rfl⟩
  rw [← hn] at h0
  simp only [encodeChar, String.utf8EncodeChar, ← hn]
  split
  next h1 =>
    refine ⟨?_, by simp⟩
    rintro b ⟨⟩
    rw [toNat_byte (by omega)]
    omega
  next h1 =>
    split
    · refine ⟨?_, ?_⟩
      · rintro b ⟨⟩
        rw [toNat_byte (by omega)]
        omega
      · simp only [List.tail_cons, List.mem_cons, List.not_mem_nil, or_false]
        rintro b rfl
        rw [toNat_byte (by omega)]
        omega
    · split
      · refine ⟨?_, ?_⟩
        · rintro b ⟨⟩
          rw [toNat_byte (by omega)]
          omega
        · simp only [List.tail_cons, List.mem_cons, List.not_mem_nil, or_false]
          rintro b (rfl | rfl) <;> rw [toNat_byte (by omega)] <;> omega
      · refine ⟨?_, ?_⟩
        · rintro b ⟨⟩
          rw [toNat_byte (by omega)]
          omega
        · simp only [List.tail_cons, List.mem_cons, List.not_mem_nil, or_false]
          rintro b (rfl | rfl | rfl) <;> rw [toNat_byte (by omega)] <;> omega

/-- No character starts inside an encoding. -/
theorem char?_inside {c : Char} {u v : Bytes} (h : encodeChar c = u ++ v) (hu : u ≠ [])
    (hv : v ≠ []) (s : Bytes) : char? (v ++ s) = none := by
  obtain ⟨a, u, rfl⟩ := List.exists_cons_of_ne_nil hu
  obtain ⟨b, v, rfl⟩ := List.exists_cons_of_ne_nil hv
  have h1 := (bytes_encodeChar c).2 b (by rw [h]; simp)
  cases hd : char? (b :: v ++ s) with
  | none => rfl
  | some p =>
    exfalso
    obtain ⟨d, r⟩ := p
    cases he : encodeChar d with
    | nil => exact encodeChar_ne_nil d he
    | cons b' w =>
      have e := eq_of_char? hd
      rw [he, List.cons_append, List.cons_append, List.cons.injEq] at e
      have h2 := (bytes_encodeChar d).1 b (by rw [he, e.1]; rfl)
      omega

@[simp] theorem char?_nil : char? [] = none := by
  cases h : char? [] with
  | none => rfl
  | some p =>
    have h1 := length_lt_of_char? (c := p.1) (r := p.2) h
    simp at h1

end Utf8

/-! ## Runs of blanks -/

theorem Bytes.lt_of_isBlank {b : UInt8} (h : Bytes.isBlank b = true) : b.toNat < 0x80 := by
  simp only [Bytes.isBlank, Bool.or_eq_true, beq_iff_eq] at h
  rcases h with (((rfl | rfl) | rfl) | rfl) | rfl <;> decide

namespace Text

theorem isBlank_asciiChar {b : UInt8} (h : Bytes.isBlank b = true) :
    isBlank (Utf8.asciiChar b) = true := by
  refine (isBlank_ofNat_iff b.toNat (Bytes.lt_of_isBlank h)).2 (.inl ?_)
  rwa [UInt8.ofNat_toNat]

/-- A run of ASCII blanks is a run of blank characters. -/
theorem exists_encode_of_isBlank {w : Bytes} (h : ∀ b ∈ w, Bytes.isBlank b = true) :
    ∃ cs, w = Utf8.encode cs ∧ ∀ c ∈ cs, isBlank c = true := by
  induction w with
  | nil => exact ⟨[], rfl, by simp⟩
  | cons b w ih =>
    obtain ⟨cs, rfl, h1⟩ := ih fun b hb => h b (List.mem_cons_of_mem _ hb)
    have h2 := h b List.mem_cons_self
    refine ⟨Utf8.asciiChar b :: cs, ?_, ?_⟩
    · rw [Utf8.encode_cons, Utf8.encodeChar_asciiChar (Bytes.lt_of_isBlank h2)]
      rfl
    · intro c hc
      rcases List.mem_cons.1 hc with rfl | hc
      · exact isBlank_asciiChar h2
      · exact h1 c hc

theorem blankLength_encode_append {cs : List Char} (h : ∀ c ∈ cs, isBlank c = true) (r : Bytes) :
    blankLength (Utf8.encode cs ++ r) = (Utf8.encode cs).length + blankLength r := by
  induction cs with
  | nil => simp
  | cons c cs ih =>
    rw [Utf8.encode_cons, List.append_assoc, blankLength]
    split
    next c' r' h1 =>
      rw [Utf8.char?_encodeChar_append] at h1
      cases h1
      rw [if_pos (h c List.mem_cons_self), ih fun d hd => h d (List.mem_cons_of_mem _ hd),
        List.length_append, Nat.add_assoc]
    next h1 =>
      rw [Utf8.char?_encodeChar_append] at h1
      cases h1

/-- Blanks are dropped whatever follows them. -/
theorem dropBlanks_encode_append {cs : List Char} (h : ∀ c ∈ cs, isBlank c = true) (s : Bytes) :
    dropBlanks (Utf8.encode cs ++ s) = dropBlanks s := by
  rw [dropBlanks, dropBlanks, blankLength_encode_append h, List.drop_length_add_append]

theorem dropBlanks_append {w : Bytes} (hw : ∀ b ∈ w, Bytes.isBlank b = true) (s : Bytes) :
    dropBlanks (w ++ s) = dropBlanks s := by
  obtain ⟨cs, rfl, hcs⟩ := exists_encode_of_isBlank hw
  exact dropBlanks_encode_append hcs s

theorem blankLength_eq_zero_iff {s : Bytes} :
    blankLength s = 0 ↔ ∀ c r, Utf8.char? s = some (c, r) → isBlank c = false := by
  rw [blankLength]
  split
  next c r h =>
    have h1 := List.length_pos_iff.2 (Utf8.encodeChar_ne_nil c)
    constructor
    · intro h2 c' r' h3
      rw [h] at h3
      cases h3
      split at h2
      next => omega
      next h4 => exact Bool.eq_false_iff.2 h4
    · intro h2
      rw [if_neg (by simp [h2 c r h])]
  next h =>
    refine ⟨fun _ c r h1 => ?_, fun _ => rfl⟩
    rw [h] at h1
    cases h1

theorem blankLength_char {c : Char} (h : isBlank c = false) (r : Bytes) :
    blankLength (Utf8.encodeChar c ++ r) = 0 := by
  refine blankLength_eq_zero_iff.2 fun c' r' h1 => ?_
  rw [Utf8.char?_encodeChar_append] at h1
  cases h1
  exact h

theorem blankLength_ascii {b : UInt8} (hb : b.toNat < 0x80)
    (h : isBlank (Utf8.asciiChar b) = false) (r : Bytes) : blankLength (b :: r) = 0 := by
  have h1 := blankLength_char h r
  rwa [Utf8.encodeChar_asciiChar hb] at h1

theorem dropBlanks_char {c : Char} (h : isBlank c = false) (r : Bytes) :
    dropBlanks (Utf8.encodeChar c ++ r) = Utf8.encodeChar c ++ r := by
  rw [dropBlanks, blankLength_char h, List.drop_zero]

theorem dropBlanks_ascii {b : UInt8} (hb : b.toNat < 0x80)
    (h : isBlank (Utf8.asciiChar b) = false) (r : Bytes) : dropBlanks (b :: r) = b :: r := by
  rw [dropBlanks, blankLength_ascii hb h, List.drop_zero]

/-- Every text starts with a run of blanks, empty perhaps, that no blank follows. -/
theorem exists_blanks (s : Bytes) : ∃ cs r, s = Utf8.encode cs ++ r ∧
    (∀ c ∈ cs, isBlank c = true) ∧ blankLength s = (Utf8.encode cs).length ∧ blankLength r = 0 := by
  fun_induction blankLength s with
  | case1 s c r h hc ih =>
    obtain ⟨cs, t, rfl, h1, h2, h3⟩ := ih
    refine ⟨c :: cs, t, ?_, ?_, ?_, h3⟩
    · rw [Utf8.eq_of_char? h, Utf8.encode_cons, List.append_assoc]
    · intro d hd
      rcases List.mem_cons.1 hd with rfl | hd
      · exact hc
      · exact h1 d hd
    · rw [Utf8.encode_cons, List.length_append, h2]
  | case2 s c r h hc =>
    refine ⟨[], s, rfl, by simp, rfl, blankLength_eq_zero_iff.2 fun c' r' h1 => ?_⟩
    rw [h] at h1
    cases h1
    simpa using hc
  | case3 s h =>
    refine ⟨[], s, rfl, by simp, rfl, blankLength_eq_zero_iff.2 fun c' r' h1 => ?_⟩
    rw [h] at h1
    cases h1

theorem exists_dropBlanks (s : Bytes) : ∃ cs, (∀ c ∈ cs, isBlank c = true) ∧
    s = Utf8.encode cs ++ dropBlanks s := by
  obtain ⟨cs, r, rfl, h1, h2, -⟩ := exists_blanks s
  exact ⟨cs, h1, by rw [dropBlanks, h2, List.drop_left]⟩

theorem blankLength_le (s : Bytes) : blankLength s ≤ s.length := by
  obtain ⟨cs, r, rfl, -, h, -⟩ := exists_blanks s
  rw [h, List.length_append]
  exact Nat.le_add_right _ _

end Text

/-! ## Text up to a closing brace -/

namespace Delimiter

theorem interiorLength_encode_append {cs : List Char} (h : '\x7d' ∉ cs) (r : Bytes) :
    interiorLength (Utf8.encode cs ++ 0x7D :: r) = (Utf8.encode cs).length := by
  induction cs with
  | nil =>
    rw [Utf8.encode_nil, List.nil_append, interiorLength]
    split
    next => rfl
    next c t h1 =>
      rw [Utf8.char?_cons (by decide)] at h1
      cases h1
      rfl
  | cons c cs ih =>
    obtain ⟨h2, h3⟩ := List.ne_and_not_mem_of_not_mem_cons h
    rw [Utf8.encode_cons, List.append_assoc, interiorLength]
    split
    next h1 =>
      rw [Utf8.char?_encodeChar_append] at h1
      cases h1
    next c' t h1 =>
      rw [Utf8.char?_encodeChar_append] at h1
      cases h1
      rw [if_neg (by simpa using Ne.symm h2), ih h3, List.length_append]

/-- The text that is counted holds no closing brace. -/
theorem exists_interior (s : Bytes) : ∃ cs r, s = Utf8.encode cs ++ r ∧ '\x7d' ∉ cs ∧
    interiorLength s = (Utf8.encode cs).length := by
  fun_induction interiorLength s with
  | case1 s h => exact ⟨[], s, rfl, by simp, rfl⟩
  | case2 s c r h hc => exact ⟨[], s, rfl, by simp, rfl⟩
  | case3 s c r h hc ih =>
    obtain ⟨cs, t, rfl, h1, h2⟩ := ih
    refine ⟨c :: cs, t, ?_, ?_, ?_⟩
    · rw [Utf8.eq_of_char? h, Utf8.encode_cons, List.append_assoc]
    · rw [List.mem_cons, not_or]
      exact ⟨fun h3 => hc (by rw [← h3]; rfl), h1⟩
    · rw [Utf8.encode_cons, List.length_append, h2]

end Delimiter

end ThemeTemplates
