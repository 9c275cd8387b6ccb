import ThemeTemplates.Text.Utf8

/-! # Blank characters

The characters with the Unicode property `White_Space`. There are twenty-five of them, and every
ASCII blank is one (`isBlank_ofNat_iff`).
-/

namespace ThemeTemplates.Text

set_option autoImplicit false

def isBlank (c : Char) : Bool :=
  let n := c.toNat
  (0x09 ≤ n && n ≤ 0x0D) || n == 0x20 || n == 0x85 || n == 0xA0 || n == 0x1680 ||
    (0x2000 ≤ n && n ≤ 0x200A) || n == 0x2028 || n == 0x2029 || n == 0x202F || n == 0x205F ||
    n == 0x3000

/-- An ASCII blank is blank as a character too; of ASCII, the vertical tab alone is blank only as a
character. -/
theorem isBlank_ofNat_iff : ∀ n < 128,
    isBlank (Char.ofNat n) = true ↔ Bytes.isBlank (UInt8.ofNat n) = true ∨ n = 0x0B := by
  decide +kernel

/-- The number of bytes that the blank characters at the start of a string take. -/
def blankLength (s : Bytes) : Nat :=
  match _h : Utf8.char? s with
  | some (c, r) => if isBlank c then (Utf8.encodeChar c).length + blankLength r else 0
  | none => 0
termination_by s.length
decreasing_by exact Utf8.length_lt_of_char? _h

/-- The string from its first character that is not blank, or from its first malformed byte. -/
def dropBlanks (s : Bytes) : Bytes := s.drop (blankLength s)

theorem length_dropBlanks_le (s : Bytes) : (dropBlanks s).length ≤ s.length := by
  rw [dropBlanks, List.length_drop]
  omega

end ThemeTemplates.Text
