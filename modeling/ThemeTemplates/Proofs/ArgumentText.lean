import ThemeTemplates.Proofs.ArgumentItems

/-! # Arguments in their plainest form

A `Name`, and after it arguments with one space before each: bare names, and pairs `key="value"`.
They are items of an interior (`Argument.written_text`), so parsing such a text gives back the name,
the bare arguments and the pairs (`Arguments.parse_content`).
-/

namespace ThemeTemplates

set_option autoImplicit false

/-! ## Names, values and arguments -/

/-- Whether a character is a brace or a quote. -/
def isDelimiter (c : Char) : Bool := c == '\x7b' || c == '\x7d' || c == '\x22' || c == '\x27'

structure Name where
  chars : List Char
  ne_nil : chars ≠ []
  plain : ∀ c ∈ chars, Text.isBlank c = false ∧ isDelimiter c = false ∧ c ≠ '='

structure Value where
  chars : List Char
  plain : ∀ c ∈ chars, isDelimiter c = false ∧ c ≠ '\n'

inductive Argument
  | bare (name : Name)
  | pair (key : Name) (value : Value)

def Name.bytes (n : Name) : Bytes := Utf8.encode n.chars

def Name.string (n : Name) : String := String.ofList n.chars

def Value.bytes (v : Value) : Bytes := Utf8.encode v.chars

namespace Argument

/-- An argument as it is written. -/
def bytes : Argument → Bytes
  | bare name => name.bytes
  | pair key value => key.bytes ++ 0x3D :: 0x22 :: (value.bytes ++ [0x22])

/-- The name of the leaf of an argument. -/
def label : Argument → List Char
  | bare name => name.chars
  | pair key value => key.chars ++ '=' :: value.chars

def isBare : Argument → Bool
  | bare _ => true
  | pair _ _ => false

/-- Arguments with a space before each. -/
def text (args : List Argument) : Bytes := args.flatMap fun a => 0x20 :: a.bytes

/-- The arguments as the node of their tag lists them. -/
def listed (args : List Argument) : List Argument :=
  args.filter isBare ++ args.filter fun a => !a.isBare

theorem text_cons (a : Argument) (args : List Argument) :
    text (a :: args) = 0x20 :: (a.bytes ++ text args) := rfl

/-- The key of a pair comes first, as the name does that is all of a bare argument. -/
theorem exists_name (a : Argument) : ∃ (n : Name) (r : Bytes), a.bytes = n.bytes ++ r := by
  cases a with
  | bare n => exact ⟨n, [], (List.append_nil _).symm⟩
  | pair k v => exact ⟨k, _, rfl⟩

theorem head?_text (args : List Argument) : ∀ b ∈ (text args).head?, Bytes.isBlank b = true := by
  intro b hb
  cases args with
  | nil => cases hb
  | cons a args =>
    cases hb
    decide

end Argument

/-- The content of a tag. -/
def content (name : Name) (args : List Argument) : Bytes := name.bytes ++ Argument.text args

/-! ## Bytes of names -/

namespace Name

theorem ascii_not_mem {n : Name} {b : UInt8} (hb : b.toNat < 0x80)
    (h : Text.isBlank (Utf8.asciiChar b) = true ∨ isDelimiter (Utf8.asciiChar b) = true ∨
      Utf8.asciiChar b = '=') : b ∉ n.bytes := by
  intro h1
  obtain ⟨h2, h3, h4⟩ := n.plain _ ((Utf8.mem_encode_iff hb).1 h1)
  rcases h with h | h | h
  · rw [h] at h2; cases h2
  · rw [h] at h3; cases h3
  · exact h4 h

theorem not_blank {n : Name} : ∀ b ∈ n.bytes, Bytes.isBlank b = false := by
  intro b hb
  rw [Bool.eq_false_iff]
  intro h
  exact ascii_not_mem (Bytes.lt_of_isBlank h) (.inl (Text.isBlank_asciiChar h)) hb

theorem not_quote {n : Name} : ∀ b ∈ n.bytes, Arguments.isQuote b = false := by
  intro b hb
  rw [Bool.eq_false_iff]
  intro h
  rw [Arguments.isQuote, Bool.or_eq_true, beq_iff_eq, beq_iff_eq] at h
  rcases h with rfl | rfl <;> exact ascii_not_mem (by decide) (.inr (.inl (by decide))) hb

theorem bytes_ne_nil (n : Name) : n.bytes ≠ [] := by
  intro h
  have h1 : Utf8.encode n.chars = Utf8.encode [] := h
  exact n.ne_nil (Utf8.encode_injective h1)

theorem exists_cons (n : Name) : ∃ c cs, n.chars = c :: cs ∧ Text.isBlank c = false ∧ c ≠ '=' := by
  cases h : n.chars with
  | nil => exact absurd h n.ne_nil
  | cons c cs =>
    obtain ⟨h1, -, h2⟩ := n.plain c (by rw [h]; simp)
    exact ⟨c, cs, rfl, h1, h2⟩

end Name

/-! ## Arguments as items -/

theorem ne_of_isDelimiter {c : Char} (h : isDelimiter c = false) : c ≠ '\x22' ∧ c ≠ '\x27' := by
  constructor
  all_goals
    rintro rfl
    exact absurd h (by decide)

def Name.toWord (n : Name) : Arguments.Word where
  bytes := n.bytes
  ne_nil := n.bytes_ne_nil
  solid := fun b hb => ⟨n.not_blank b hb, by
    rintro rfl
    exact ascii_not_mem (by decide) (.inr (.inr (by decide))) hb⟩
  not_quoted := Arguments.ne_quoted_of_head? fun b hb => n.not_quote b (List.mem_of_mem_head? hb)

def Name.toKey (n : Name) : Arguments.Key where
  chars := n.chars
  ne_nil := n.ne_nil
  plain := fun c hc => ⟨(n.plain c hc).1, (n.plain c hc).2.2, ne_of_isDelimiter (n.plain c hc).2.1⟩

def Value.toAssigned (v : Value) : Arguments.Assigned where
  chars := v.chars
  plain := fun c hc => ⟨(v.plain c hc).2, ne_of_isDelimiter (v.plain c hc).1⟩

namespace Argument

open Arguments

def toItem : Argument → Item
  | bare name => .bare name.toWord
  | pair key value =>
    .pair key.toKey ⟨[], List.forall_mem_nil _⟩ ⟨[], List.forall_mem_nil _⟩ .double value.toAssigned

theorem bytes_toItem (a : Argument) : a.toItem.bytes = a.bytes := by cases a <;> rfl

theorem written_text (args : List Argument) : Written (args.map toItem) (text args) := by
  induction args with
  | nil => exact .nil ⟨[], List.forall_mem_nil _⟩
  | cons a args ih =>
    have h1 : Written (a.toItem :: args.map toItem) ([0x20] ++ (a.toItem.bytes ++ text args)) :=
      .cons ⟨[0x20], by decide⟩ a.toItem ih (head?_text args)
    rwa [bytes_toItem] at h1

theorem filterMap_field? (args : List Argument) : (args.map toItem).filterMap Item.field? =
    (args.filter isBare).map fun a => Utf8.encode a.label := by
  induction args with
  | nil => rfl
  | cons a args ih =>
    cases a with
    | bare n => exact congrArg (n.bytes :: ·) ih
    | pair k v => exact ih

theorem filterMap_token? (args : List Argument) : (args.map toItem).filterMap Item.token? =
    (args.filter fun a => !a.isBare).map fun a => Utf8.encode a.label := by
  induction args with
  | nil => rfl
  | cons a args ih =>
    cases a with
    | bare n => exact ih
    | pair k v =>
      have h1 : k.bytes ++ equals :: v.bytes = Utf8.encode (Argument.pair k v).label := by
        rw [label, Utf8.encode_append, Utf8.encode_cons]
        rfl
      exact congrArg₂ List.cons h1 ih

end Argument

/-- The name, the bare arguments and the pairs come back as they were written. -/
theorem Arguments.parse_content (name : Name) (args : List Argument) : parse (content name args) =
    { name := name.bytes
      positional := (args.filter Argument.isBare).map fun a => Utf8.encode a.label
      named := (args.filter fun a => !a.isBare).map fun a => Utf8.encode a.label } := by
  have h1 : Written (.bare name.toWord :: args.map Argument.toItem) (content name args) :=
    .cons ⟨[], List.forall_mem_nil _⟩ _ (Argument.written_text args) (Argument.head?_text args)
  rw [h1.reads.parse_eq]
  simp only [List.filterMap_cons, Item.field?, Item.token?, Argument.filterMap_field?,
    Argument.filterMap_token?]
  rfl

end ThemeTemplates
