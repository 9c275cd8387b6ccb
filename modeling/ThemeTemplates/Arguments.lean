import ThemeTemplates.Text.Blank

/-! # Arguments of a tag

The interior of a tag holds a name, positional arguments and named ones.

* A named pair is a key, an equals sign and a quoted value, with blanks allowed around the sign. It
  may stand anywhere, and becomes one token `key=value`. Its value ends at the first quote of either
  sort.
* What is left when the pairs are taken out is split at ASCII blanks, and each field loses one layer
  of matching quotes. The first field is the name.

`Arguments.division` finds the pairs together with the gaps between them, `Arguments.parse` builds
the tokens. No interior is an error: stray quotes stay part of the token they stand in.
-/

namespace ThemeTemplates

set_option autoImplicit false

structure Arguments where
  name : Bytes
  positional : List Bytes
  /-- One token `key=value` for each pair, in the order of the pairs. -/
  named : List Bytes
  deriving DecidableEq, Repr

namespace Arguments

/-! ## Quotes -/

def isQuote (b : UInt8) : Bool := b == 0x22 || b == 0x27

def equals : UInt8 := 0x3D

/-- Takes one layer of matching quotes off. -/
def unquote (field : Bytes) : Bytes :=
  match field with
  | [] => []
  | q :: r => if isQuote q && r.getLast? == some q then r.dropLast else field

/-! ## Named pairs -/

/-- A named pair, with the text between the pair before it and this one. -/
structure Pair where
  gap : Bytes
  key : Bytes
  value : Bytes
  deriving DecidableEq, Repr

/-- The pairs of an interior, and the text after the last one. -/
structure Division where
  pairs : List Pair
  last : Bytes
  deriving DecidableEq, Repr

def Division.addGap (text : Bytes) : Division → Division
  | ⟨[], last⟩ => ⟨[], text ++ last⟩
  | ⟨p :: ps, last⟩ => ⟨{ p with gap := text ++ p.gap } :: ps, last⟩

def Division.addPair (key value : Bytes) (d : Division) : Division :=
  { d with pairs := ⟨[], key, value⟩ :: d.pairs }

def Division.rest (d : Division) : Bytes := (d.pairs.map Pair.gap).flatten ++ d.last

/-- The characters up to the first quote, and the text after it. A value spans no line feed and
holds well-formed characters only. -/
def value? (s : Bytes) : Option (Bytes × Bytes) :=
  match s with
  | [] => none
  | b :: r =>
    if isQuote b then some ([], r)
    else
      match _h : Utf8.char? (b :: r) with
      | none => none
      | some (c, rest) =>
        if c == '\n' then none
        else (value? rest).map fun p => (Utf8.encodeChar c ++ p.1, p.2)
termination_by s.length
decreasing_by exact Utf8.length_lt_of_char? _h

/-- The value that follows a key, and the text after it. The argument is the text from the end of
the key. -/
def assigned? (s : Bytes) : Option (Bytes × Bytes) :=
  match Text.dropBlanks s with
  | [] => none
  | e :: r =>
    if e == equals then
      match Text.dropBlanks r with
      | [] => none
      | q :: v => if isQuote q then value? v else none
    else none

theorem length_lt_of_value? {s value rest : Bytes} (h : value? s = some (value, rest)) :
    rest.length < s.length := by
  fun_induction value? s generalizing value with
  | case1 => cases h
  | case2 b r hb =>
    cases h
    simp
  | case3 => cases h
  | case4 => cases h
  | case5 b r hb c r' hc hn ih =>
    obtain ⟨⟨v, t⟩, h1, h2⟩ := Option.map_eq_some_iff.1 h
    cases h2
    exact Nat.lt_trans (ih h1) (Utf8.length_lt_of_char? hc)

theorem length_lt_of_assigned? {s value rest : Bytes} (h : assigned? s = some (value, rest)) :
    rest.length < s.length := by
  unfold assigned? at h
  split at h
  next => cases h
  next e r h1 =>
    split at h
    next =>
      split at h
      next => cases h
      next q v h2 =>
        split at h
        next =>
          have h3 := length_lt_of_value? h
          have h4 := Text.length_dropBlanks_le s
          have h5 := Text.length_dropBlanks_le r
          rw [h1] at h4
          rw [h2] at h5
          simp only [List.length_cons] at h4 h5
          omega
        next => cases h
    next => cases h

/-- The value of a key that ends where `s` starts, and the text after it. No key is empty. -/
def pairEnd? (key s : Bytes) : Option (Bytes × Bytes) :=
  if key.isEmpty then none else assigned? s

theorem length_lt_of_pairEnd? {key s value rest : Bytes} (h : pairEnd? key s = some (value, rest)) :
    rest.length < s.length := by
  unfold pairEnd? at h
  split at h
  next => cases h
  next => exact length_lt_of_assigned? h

/-- The pairs of the text `run ++ s`, where `run` is the start of a key: characters that are not
blank and of which no pair was made so far. A key is as short as it can be, so a pair is tried after
each character. A blank or a malformed byte ends the run. -/
def divide (run s : Bytes) : Division :=
  match _h : pairEnd? run s with
  | some (value, rest) => (divide [] rest).addPair run value
  | none =>
    match _h1 : Utf8.char? s with
    | some (c, rest) =>
      if Text.isBlank c then (divide [] rest).addGap (run ++ Utf8.encodeChar c)
      else divide (run ++ Utf8.encodeChar c) rest
    | none =>
      if _h2 : s = [] then ⟨[], run⟩
      else (divide [] (s.drop 1)).addGap (run ++ s.take 1)
termination_by s.length
decreasing_by
  · exact length_lt_of_pairEnd? _h
  · exact Utf8.length_lt_of_char? _h1
  · exact Utf8.length_lt_of_char? _h1
  · have h3 := List.length_pos_iff.2 _h2
    rw [List.length_drop]
    omega

def division (src : Bytes) : Division := divide [] src

/-! ## Tokens -/

/-- Whether a string is a line of well-formed text. -/
def isLine (s : Bytes) : Bool :=
  match _h : Utf8.char? s with
  | none => s.isEmpty
  | some (c, r) => c != '\n' && isLine r
termination_by s.length
decreasing_by exact Utf8.length_lt_of_char? _h

/-- A token whose end is quoted loses the last quote and the first one before it. -/
def joinPair (token : Bytes) : Bytes :=
  match token.dropWhile fun b => !isQuote b with
  | [] => token
  | _ :: r =>
    if isLine token && r.dropLast != [] && (r.getLast?.map isQuote == some true) then
      (token.takeWhile fun b => !isQuote b) ++ r.dropLast
    else token

def Pair.token (p : Pair) : Bytes := joinPair (p.key ++ equals :: p.value)

def parse (src : Bytes) : Arguments :=
  let d := division src
  let named := d.pairs.map Pair.token
  match (Bytes.fields d.rest).map unquote with
  | [] => ⟨[], [], named⟩
  | name :: positional => ⟨name, positional, named⟩

theorem parse_eq (src : Bytes) : parse src =
    { name := ((Bytes.fields (division src).rest).map unquote).headD []
      positional := ((Bytes.fields (division src).rest).map unquote).tail
      named := (division src).pairs.map Pair.token } := by
  simp only [parse]
  split
  next h => rw [h]; rfl
  next name positional h => rw [h]; rfl

end Arguments

end ThemeTemplates
