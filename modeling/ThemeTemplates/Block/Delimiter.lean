import ThemeTemplates.Text.Blank

/-! # Delimiters of a block

A block of some name starts with an opener and ends with a closer. Which tags of a text delimit
blocks of one name is read off the text itself:

* a closer is two or three opening braces, a slash, the name, and two or three closing braces;
* an opener has a number sign in place of the slash, and after the name it may go on with a blank
  and any well-formed text without a closing brace.

Blanks may follow the opening braces of both, and the name of a closer. Of two or three braces the
longer run counts. `Delimiter.spans` lists the delimiters of one sort from the left, without
overlaps. A name of any length can be searched for.
-/

namespace ThemeTemplates

set_option autoImplicit false

namespace Delimiter

inductive Side
  | opener
  | closer
  deriving DecidableEq, Repr

def Side.sign : Side → UInt8
  | .opener => 0x23
  | .closer => 0x2F

/-! ## One delimiter -/

/-- The number of braces that open a tag at the start of a text: the longer run of two or three. -/
def openingLength? : Bytes → Option Nat
  | 0x7B :: 0x7B :: 0x7B :: _ => some 3
  | 0x7B :: 0x7B :: _ => some 2
  | _ => none

/-- The number of braces that close a tag at the start of a text: the longer run of two or three. -/
def closingLength? : Bytes → Option Nat
  | 0x7D :: 0x7D :: 0x7D :: _ => some 3
  | 0x7D :: 0x7D :: _ => some 2
  | _ => none

/-- The number of bytes before the first closing brace, or before the first malformed byte. -/
def interiorLength (s : Bytes) : Nat :=
  match _h : Utf8.char? s with
  | none => 0
  | some (c, r) => if c == '\x7d' then 0 else (Utf8.encodeChar c).length + interiorLength r
termination_by s.length
decreasing_by exact Utf8.length_lt_of_char? _h

/-- The number of bytes that may stand between the name and the closing braces. -/
def tailLength (side : Side) (s : Bytes) : Nat :=
  match side with
  | .closer => Text.blankLength s
  | .opener =>
    match Utf8.char? s with
    | some (c, _) => if Text.isBlank c then interiorLength s else 0
    | none => 0

/-- The length of the delimiter that starts a text. -/
def length? (side : Side) (name s : Bytes) : Option Nat :=
  match openingLength? s with
  | none => none
  | some opening =>
    let blanks := Text.blankLength (s.drop opening)
    match s.drop (opening + blanks) with
    | [] => none
    | sign :: t =>
      if sign == side.sign && name.isPrefixOf t then
        let rest := t.drop name.length
        let tail := tailLength side rest
        (closingLength? (rest.drop tail)).map fun closing =>
          opening + blanks + 1 + name.length + tail + closing
      else none

/-! ## All delimiters of a text -/

/-- The matches of a text from the left: `length?` measures the one that starts a text, the first
byte has the position `offset`, and `skip` more bytes belong to the match before. -/
def spansFrom (length? : Bytes → Option Nat) : (offset skip : Nat) → Bytes → List Span
  | _, _, [] => []
  | offset, skip + 1, _ :: r => spansFrom length? (offset + 1) skip r
  | offset, 0, b :: r =>
    match length? (b :: r) with
    | none => spansFrom length? (offset + 1) 0 r
    | some n => ⟨offset, offset + n⟩ :: spansFrom length? (offset + 1) (n - 1) r

/-- The delimiters of one sort for blocks of one name. -/
def spans (side : Side) (name s : Bytes) : List Span := spansFrom (length? side name) 0 0 s

end Delimiter

end ThemeTemplates
