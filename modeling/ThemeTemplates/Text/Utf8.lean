import ThemeTemplates.Bytes

/-! # Characters in byte strings

A byte string may hold text in UTF-8, in whole or in part.

* `char? s` reads the character whose encoding starts `s`: the bits of the first bytes propose one,
  and it counts only if its own encoding is what stands there. So overlong forms and surrogates are
  refused: a character is read where its encoding stands, and nowhere else (`char?_eq_some_iff`).
* `lossy s` reads the whole string and puts one replacement character for each longest stretch that
  could have started an encoding but did not go on as one.
* `encode` writes characters, and `decode_encode` reads them back.
-/

namespace ThemeTemplates.Utf8

set_option autoImplicit false

/-! ## Writing -/

/-- The encoding of one character, one to four bytes. -/
def encodeChar (c : Char) : Bytes := String.utf8EncodeChar c

def encode (cs : List Char) : Bytes := cs.flatMap encodeChar

def ofString (s : String) : Bytes := encode s.toList

theorem encodeChar_ne_nil (c : Char) : encodeChar c ≠ [] := String.utf8EncodeChar_ne_nil

/-! ## Reading one character -/

def byteAt (s : Bytes) (i : Nat) : Nat := (s.getD i 0).toNat

/-- The character that the bits of the first bytes propose. The first byte carries the bits that its
length leaves, and each other byte carries six. -/
def proposed (s : Bytes) : Char :=
  let a := byteAt s 0
  let b := byteAt s 1 % 64
  let c := byteAt s 2 % 64
  let d := byteAt s 3 % 64
  if a < 0x80 then Char.ofNat a
  else if a < 0xE0 then Char.ofNat (a % 32 * 64 + b)
  else if a < 0xF0 then Char.ofNat ((a % 16 * 64 + b) * 64 + c)
  else Char.ofNat (((a % 8 * 64 + b) * 64 + c) * 64 + d)

/-- The character whose encoding starts the string, and the bytes after it. -/
def char? (s : Bytes) : Option (Char × Bytes) :=
  if (encodeChar (proposed s)).isPrefixOf s then
    some (proposed s, s.drop (encodeChar (proposed s)).length)
  else none

theorem eq_of_char? {s r : Bytes} {c : Char} (h : char? s = some (c, r)) :
    s = encodeChar c ++ r := by
  unfold char? at h
  split at h
  next h1 =>
    simp only [Option.some.injEq, Prod.mk.injEq] at h
    obtain ⟨rfl, rfl⟩ := h
    exact (Bytes.append_drop_of_isPrefixOf h1).symm
  next => cases h

theorem toNat_byte {n : Nat} (h : n < 256) : (UInt8.ofNat n).toNat = n := by
  simp [UInt8.toNat_ofNat', Nat.mod_eq_of_lt h]

theorem val_toNat_lt (c : Char) : c.val.toNat < 0x110000 := by
  rcases c.valid with h | h
  · have h1 : c.val.toNat < 0xD800 := h
    omega
  · exact h.2

/-- The bits of an encoding propose the character that it encodes. -/
theorem proposed_encodeChar (c : Char) (r : Bytes) : proposed (encodeChar c ++ r) = c := by
  obtain ⟨n, hn⟩ : ∃ n, n = c.val.toNat := ⟨_, rfl⟩
  have h0 := val_toNat_lt c
  have e : ∀ m, m = n → Char.ofNat m = c := by
    intro m hm
    rw [hm, hn]
    exact Char.ofNat_toNat c
  have b0 : ∀ (a : UInt8) (s : Bytes), byteAt (a :: s) 0 = a.toNat := fun _ _ => rfl
  have b1 : ∀ (a b : UInt8) (s : Bytes), byteAt (a :: b :: s) 1 = b.toNat := fun _ _ _ => rfl
  have b2 : ∀ (a b c : UInt8) (s : Bytes), byteAt (a :: b :: c :: s) 2 = c.toNat :=
    fun _ _ _ _ => rfl
  have b3 : ∀ (a b c d : UInt8) (s : Bytes), byteAt (a :: b :: c :: d :: s) 3 = d.toNat :=
    fun _ _ _ _ _ => rfl
  rw [← hn] at h0
  simp only [encodeChar, String.utf8EncodeChar, ← hn]
  split
  next h =>
    simp only [proposed, List.cons_append, List.nil_append, b0]
    rw [toNat_byte (by omega), if_pos (by omega)]
    exact e _ rfl
  next h1 =>
    split
    next h2 =>
      simp only [proposed, List.cons_append, List.nil_append, b0, b1]
      rw [toNat_byte (by omega), toNat_byte (by omega), if_neg (by omega),
        if_pos (by omega)]
      exact e _ (by omega)
    next h2 =>
      split
      next h3 =>
        simp only [proposed, List.cons_append, List.nil_append, b0, b1, b2]
        rw [toNat_byte (by omega), toNat_byte (by omega),
          toNat_byte (by omega), if_neg (by omega), if_neg (by omega), if_pos (by omega)]
        exact e _ (by omega)
      next h3 =>
        simp only [proposed, List.cons_append, List.nil_append, b0, b1, b2, b3]
        rw [toNat_byte (by omega), toNat_byte (by omega),
          toNat_byte (by omega), toNat_byte (by omega), if_neg (by omega),
          if_neg (by omega), if_neg (by omega)]
        exact e _ (by omega)

theorem char?_encodeChar_append (c : Char) (r : Bytes) :
    char? (encodeChar c ++ r) = some (c, r) := by
  rw [char?, proposed_encodeChar, if_pos (List.isPrefixOf_iff_prefix.2 ⟨r, rfl⟩)]
  simp

theorem char?_eq_some_iff {s r : Bytes} {c : Char} :
    char? s = some (c, r) ↔ s = encodeChar c ++ r :=
  ⟨eq_of_char?, fun h => h ▸ char?_encodeChar_append c r⟩

theorem length_lt_of_char? {s r : Bytes} {c : Char} (h : char? s = some (c, r)) :
    r.length < s.length := by
  have h1 : 0 < (encodeChar c).length := List.length_pos_iff.2 (encodeChar_ne_nil c)
  rw [eq_of_char? h, List.length_append]
  omega

/-! ## Reading a whole string -/

/-- Whether `b` may be the second byte of an encoding of two or more bytes that starts with `a`. -/
def mayFollow (a b : UInt8) : Bool :=
  if a < 0xC2 || 0xF4 < a then false
  else if a == 0xE0 then 0xA0 ≤ b && b ≤ 0xBF
  else if a == 0xED then 0x80 ≤ b && b ≤ 0x9F
  else if a == 0xF0 then 0x90 ≤ b && b ≤ 0xBF
  else if a == 0xF4 then 0x80 ≤ b && b ≤ 0x8F
  else 0x80 ≤ b && b ≤ 0xBF

/-- Of bytes that start no encoding, how many one replacement character stands for: those that an
encoding could have started with, and one where there are none. -/
def malformedLength : Bytes → Nat
  | a :: b :: c :: _ =>
    if mayFollow a b then if 0xF0 ≤ a && 0x80 ≤ c && c ≤ 0xBF then 3 else 2 else 1
  | [a, b] => if mayFollow a b then 2 else 1
  | _ => 1

theorem malformedLength_pos (s : Bytes) : 0 < malformedLength s := by
  unfold malformedLength
  split
  · split
    · split <;> decide
    · decide
  · split <;> decide
  · decide

/-- The characters of a string, with one replacement character for each malformed stretch. -/
def decode (s : Bytes) : List Char :=
  match s with
  | [] => []
  | a :: r =>
    match _h : char? (a :: r) with
    | some (c, rest) => c :: decode rest
    | none => Char.ofNat 0xFFFD :: decode ((a :: r).drop (malformedLength (a :: r)))
termination_by s.length
decreasing_by
  · exact length_lt_of_char? _h
  · have h1 := malformedLength_pos (a :: r)
    simp only [List.length_drop, List.length_cons]
    omega

theorem decode_of_char? {s r : Bytes} {c : Char} (h : char? s = some (c, r)) :
    decode s = c :: decode r := by
  cases s with
  | nil =>
    have h1 := length_lt_of_char? h
    simp at h1
  | cons a t =>
    rw [decode]
    split
    next c' r' h1 =>
      rw [h] at h1
      cases h1
      rfl
    next h1 =>
      rw [h] at h1
      cases h1

theorem decode_encode (cs : List Char) : decode (encode cs) = cs := by
  induction cs with
  | nil => rw [encode, List.flatMap_nil, decode]
  | cons c cs ih =>
    have h : encode (c :: cs) = encodeChar c ++ encode cs := rfl
    rw [h, decode_of_char? (char?_encodeChar_append c (encode cs)), ih]

/-- The text of a string, with one replacement character for each malformed stretch. -/
def lossy (s : Bytes) : String := String.ofList (decode s)

end ThemeTemplates.Utf8
