import ThemeTemplates.Proofs.ArgumentText
import ThemeTemplates.Proofs.Nesting

/-! # Canonical tokens

A `Token` is a part of a template that is written in the plainest way: literal text, a comment of
either sort, an expression, an opener or a closer. `Token.render` writes it down.

Each token is a piece (`Token.piece`), and a text of tokens is legible (`Token.legible`): the scanner
and the delimiter patterns find every token in it, and nothing else.
-/

namespace ThemeTemplates

set_option autoImplicit false

open Delimiter

/-! ## Tokens and how they are written -/

/-- A name that is not taken for the sign of another tag. -/
structure Callee extends Name where
  unsigned : ∀ c ∈ chars.head?, c ≠ '!' ∧ c ≠ '#' ∧ c ≠ '/'

/-- The name of a block. -/
structure BlockName extends Name where
  not_else : toName.string ≠ Node.elseName

inductive Token
  | text (w : Bytes) (literal : Tag.Literal w) (no_brace : w.head? ≠ some 0x7D)
  | remark (c : Bytes) (no_brace : 0x7B ∉ c ∧ 0x7D ∉ c) (not_blank : ¬ Bytes.Blank c)
  | comment (c : Bytes) (no_end : ¬ Tag.commentEnd <:+: c)
  | expression (triple : Bool) (name : Callee) (args : List Argument)
  | opener (id : BlockName) (args : List Argument)
  | closer (id : BlockName)

namespace Token

/-- A token as it is written. -/
def render : Token → Bytes
  | text w _ _ => w
  | remark c _ _ => Tag.braced (0x21 :: 0x20 :: c)
  | comment c _ => Tag.remark c
  | expression true name args => Tag.braced (0x7B :: content name.toName args) ++ [0x7D]
  | expression false name args => Tag.braced (content name.toName args)
  | opener id args => Tag.braced (0x23 :: content id.toName args)
  | closer id => Tag.braced (0x2F :: id.bytes)

/-- The text of a sequence of tokens. -/
def source (ts : List Token) : Bytes := ts.flatMap render

/-- The end of a block that a token is. -/
def bracket? : Token → Option Bracket
  | opener id _ => some (.opening id.bytes)
  | closer id => some (.closing id.bytes)
  | _ => none

end Token

/-! ## Text without braces -/

/-- Neither sort of brace. -/
structure Braceless (w : Bytes) : Prop where
  no_open : 0x7B ∉ w
  no_close : 0x7D ∉ w

theorem Braceless.cons {b : UInt8} {w : Bytes} (hb : b ≠ 0x7B ∧ b ≠ 0x7D) (h : Braceless w) :
    Braceless (b :: w) :=
  ⟨by simp [h.no_open, hb.1.symm], by simp [h.no_close, hb.2.symm]⟩

theorem Braceless.of_chars {cs : List Char} (h : ∀ c ∈ cs, c ≠ '\x7b' ∧ c ≠ '\x7d') :
    Braceless (Utf8.encode cs) :=
  ⟨fun h1 => (h _ ((Utf8.mem_encode_iff (by decide)).1 h1)).1 rfl,
    fun h1 => (h _ ((Utf8.mem_encode_iff (by decide)).1 h1)).2 rfl⟩

/-- Behind one brace at most, text without braces has no opening braces in it. -/
theorem not_openMark_infix {o body u : Bytes} (ho : o = [] ∨ o = [0x7B]) (hb : Braceless body)
    (hu : u <:+: o ++ body) : ¬ Tag.openMark <:+: u := by
  intro h
  have h1 := (h.trans hu).sublist.count_le (0x7B : UInt8)
  have h2 : body.count (0x7B : UInt8) = 0 := List.count_eq_zero.2 hb.no_open
  have h3 : o.count (0x7B : UInt8) ≤ 1 := by rcases ho with rfl | rfl <;> decide
  have h4 : Tag.openMark.count (0x7B : UInt8) = 2 := by decide
  rw [List.count_append] at h1
  omega

theorem openMark_prefix_of_isHead {u : Bytes} (h : isHead u = true) : Tag.openMark <+: u := by
  unfold isHead at h
  split at h
  next => cases h
  next k hk =>
    obtain ⟨o, r, rfl, -, ho⟩ := exists_of_openingLength? hk
    rcases ho with rfl | rfl
    · exact ⟨r, rfl⟩
    · exact ⟨0x7B :: r, rfl⟩

theorem interior_of_braceless {o body : Bytes} (ho : o = [] ∨ o = [0x7B]) (hb : Braceless body) :
    Tag.Interior (o ++ body) := by
  have h1 : 0x7D ∉ o ++ body := by
    rw [List.mem_append, not_or]
    refine ⟨?_, hb.no_close⟩
    rcases ho with rfl | rfl <;> decide
  exact ⟨fun h => h1 (h.subset (by decide)), fun h => h1 (List.mem_of_getLast? h)⟩

/-- A tag without braces in it fits wherever what it takes from the text behind it stands there. -/
theorem fitsTag_of_braceless {o body spare s : Bytes} (ho : o = [] ∨ o = [0x7B])
    (hb : Braceless body) (hm : ¬ Tag.commentMark <+: o ++ body)
    (hr : Piece.Recognised (o ++ body)) (hs : (Tag.reading (o ++ body)).Spare spare s) :
    Piece.FitsTag (o ++ body) spare s where
  unbroken := interior_of_braceless ho hb
  no_remark := by
    have e : o ++ body ++ Tag.closeMark ++ (spare ++ s) =
        o ++ body ++ 0x7D :: ([0x7D] ++ (spare ++ s)) := by simp [Tag.closeMark]
    rw [e, Tag.longComment?, Tag.not_commentMark_prefix hm]
    rfl
  no_mark := fun h => not_openMark_infix ho hb (List.infix_refl _)
    ((List.prefix_append _ _).isInfix.trans h)
  headless := by
    intro u hu
    rw [Bool.eq_false_iff]
    intro h
    exact not_openMark_infix ho hb ((List.mem_tails _ _).1 hu).isInfix
      (openMark_prefix_of_isHead h).isInfix
  recognised := hr
  spare := hs

theorem fitsTag_bare {body spare s : Bytes} (hb : Braceless body)
    (hm : ¬ Tag.commentMark <+: body) (hr : Piece.Recognised body)
    (hs : (Tag.reading body).Spare spare s) : Piece.FitsTag body spare s :=
  fitsTag_of_braceless (o := []) (.inl rfl) hb hm hr hs

theorem fitsTag_triple {body spare s : Bytes} (hb : Braceless body)
    (hr : Piece.Recognised (0x7B :: body)) (hs : (Tag.reading (0x7B :: body)).Spare spare s) :
    Piece.FitsTag (0x7B :: body) spare s :=
  fitsTag_of_braceless (o := [0x7B]) (.inr rfl) hb (by simp [Tag.commentMark]) hr hs

/-! ## The content of a tag -/

theorem ne_brace_of_isDelimiter {c : Char} (h : isDelimiter c = false) :
    c ≠ '\x7b' ∧ c ≠ '\x7d' := by
  constructor <;> rintro rfl <;> exact absurd h (by decide)

namespace Argument

/-- The characters of an argument. -/
theorem exists_chars (a : Argument) :
    ∃ cs, a.bytes = Utf8.encode cs ∧ ∀ c ∈ cs, c ≠ '\x7b' ∧ c ≠ '\x7d' := by
  cases a with
  | bare n => exact ⟨n.chars, rfl, fun c hc => ne_brace_of_isDelimiter (n.plain c hc).2.1⟩
  | pair k v =>
    refine ⟨k.chars ++ '=' :: '\x22' :: (v.chars ++ ['\x22']), ?_, fun c hc => ?_⟩
    · simp only [Utf8.encode_append, Utf8.encode_cons, Utf8.encode_nil]
      rfl
    · simp only [List.mem_append, List.mem_cons, List.not_mem_nil, or_false] at hc
      rcases hc with hc | rfl | rfl | hc | rfl
      · exact ne_brace_of_isDelimiter (k.plain c hc).2.1
      · decide
      · decide
      · exact ne_brace_of_isDelimiter (v.plain c hc).1
      · decide

theorem exists_text (args : List Argument) : ∃ cs, text args = Utf8.encode cs ∧
    (∀ c ∈ cs, c ≠ '\x7b' ∧ c ≠ '\x7d') ∧ ∀ c ∈ cs.head?, c = ' ' := by
  induction args with
  | nil => exact ⟨[], rfl, by simp, by simp⟩
  | cons a args ih =>
    obtain ⟨cs, h1, h2⟩ := a.exists_chars
    obtain ⟨ds, h3, h4, -⟩ := ih
    refine ⟨' ' :: (cs ++ ds), ?_, ?_, by simp⟩
    · rw [text_cons, h1, h3, Utf8.encode_cons, Utf8.encode_append]
      rfl
    · intro c hc
      rcases List.mem_cons.1 hc with rfl | hc
      · decide
      · rcases List.mem_append.1 hc with hc | hc
        · exact h2 c hc
        · exact h4 c hc

theorem getLast?_bytes (a : Argument) : ∀ b ∈ a.bytes.getLast?, Bytes.isBlank b = false := by
  intro b hb
  cases a with
  | bare n => exact n.not_blank b (List.mem_of_getLast? hb)
  | pair k v =>
    have e : (pair k v).bytes = (k.bytes ++ 0x3D :: 0x22 :: v.bytes) ++ [0x22] := by simp [bytes]
    rw [e, List.getLast?_concat] at hb
    cases hb
    decide

theorem getLast?_text (args : List Argument) : ∀ w : Bytes,
    (∀ b ∈ w.getLast?, Bytes.isBlank b = false) →
      ∀ b ∈ (w ++ text args).getLast?, Bytes.isBlank b = false := by
  induction args with
  | nil =>
    intro w hw
    rwa [show text [] = [] from rfl, List.append_nil]
  | cons a args ih =>
    intro w _
    have e : w ++ text (a :: args) = (w ++ 0x20 :: a.bytes) ++ text args := by
      rw [text_cons]
      simp
    obtain ⟨n, r, h1⟩ := a.exists_name
    have h2 : a.bytes ≠ [] := by simp [h1, n.bytes_ne_nil]
    rw [e]
    refine ih _ ?_
    rw [List.getLast?_append_of_ne_nil _ (List.cons_ne_nil _ _), List.getLast?_cons_of_ne_nil h2]
    exact a.getLast?_bytes

end Argument

theorem Name.word (n : Name) : Word n.bytes :=
  ⟨n.chars, rfl, fun c hc =>
    ⟨(n.plain c hc).1, (ne_brace_of_isDelimiter (n.plain c hc).2.1).2⟩⟩

theorem Name.braceless (n : Name) : Braceless n.bytes :=
  .of_chars fun c hc => ne_brace_of_isDelimiter (n.plain c hc).2.1

section
variable (name : Name) (args : List Argument)

theorem braceless_content : Braceless (content name args) := by
  obtain ⟨cs, h1, h2, -⟩ := Argument.exists_text args
  rw [content, h1, Name.bytes, ← Utf8.encode_append]
  refine .of_chars fun c hc => ?_
  rcases List.mem_append.1 hc with hc | hc
  · exact ne_brace_of_isDelimiter (name.plain c hc).2.1
  · exact h2 c hc

theorem trimmed_content : Bytes.Trimmed (content name args) := by
  refine ⟨fun b hb => ?_, ?_⟩
  · rw [content, List.head?_append_of_ne_nil _ name.bytes_ne_nil] at hb
    exact name.not_blank b (List.mem_of_mem_head? hb)
  · exact Argument.getLast?_text args _ fun b hb => name.not_blank b (List.mem_of_getLast? hb)

theorem blockName?_content : Template.blockName? (content name args) = some name.bytes := by
  have h1 : ∀ b ∈ (Argument.text args).head?, Bytes.isBlank b = true := by
    intro b hb
    cases args with
    | nil => cases hb
    | cons a args => cases hb; decide
  rw [Template.blockName?, content, Bytes.fields_append name.not_blank name.bytes_ne_nil h1]
  rfl

theorem tail_text : Tail .opener (Argument.text args) := by
  obtain ⟨cs, h1, h2, h3⟩ := Argument.exists_text args
  refine ⟨cs, h1, fun h => (h2 _ h).2 rfl, fun c hc => ?_, by simp⟩
  rw [h3 c hc]
  decide

end

/-! ## What the scanner reads -/

theorem reading_of_not_mem {body : Bytes} (h : 0x7B ∉ body) : Tag.reading body =
    ⟨(Tag.classify (Bytes.trim body)).1, [], (Tag.classify (Bytes.trim body)).2, [], false⟩ := by
  unfold Tag.reading Tag.ofInterior
  split
  next => exact absurd List.mem_cons_self h
  next => rfl

theorem classify_of_ne {b : UInt8} {r : Bytes} (h : b ≠ 0x21 ∧ b ≠ 0x23 ∧ b ≠ 0x2F) :
    Tag.classify (b :: r) = (.expression, b :: r) := by
  obtain ⟨h1, h2, h3⟩ := h
  have h4 : (Tag.remarkMark.isPrefixOf (b :: r) || Tag.commentMark.isPrefixOf (b :: r)) = false := by
    simp [Tag.remarkMark, Tag.commentMark, List.isPrefixOf_cons_cons, h1.symm]
  unfold Tag.classify
  rw [h4, if_neg Bool.false_ne_true]
  split
  next h5 => cases h5; exact absurd rfl h2
  next h5 => cases h5; exact absurd rfl h3
  next => rfl

theorem classify_opener (r : Bytes) : Tag.classify (0x23 :: r) = (.opener, r) := rfl

theorem classify_closer (r : Bytes) : Tag.classify (0x2F :: r) = (.closer, Bytes.trim r) := rfl

namespace Callee

/-- The first byte of a callee is that of a character that is no sign. -/
theorem exists_content (n : Callee) (args : List Argument) :
    ∃ c b r x, content n.toName args = b :: r ∧ b :: r = Utf8.encodeChar c ++ x ∧
      Text.isBlank c = false ∧ b ≠ 0x21 ∧ b ≠ 0x23 ∧ b ≠ 0x2F := by
  obtain ⟨c, cs, h1, hb, -⟩ := n.toName.exists_cons
  have h2 := n.unsigned c (by rw [h1]; rfl)
  have e : content n.toName args = Utf8.encodeChar c ++ (Utf8.encode cs ++ Argument.text args) := by
    rw [content, Name.bytes, h1, Utf8.encode_cons, List.append_assoc]
  cases he : Utf8.encodeChar c with
  | nil => exact absurd he (Utf8.encodeChar_ne_nil c)
  | cons b x =>
    refine ⟨c, b, _, _, e.trans (by rw [he]; rfl), by rw [he]; rfl, hb, ?_, ?_, ?_⟩
    · exact Utf8.ne_of_encodeChar (d := 0x21) he (by decide) h2.1
    · exact Utf8.ne_of_encodeChar (d := 0x23) he (by decide) h2.2.1
    · exact Utf8.ne_of_encodeChar (d := 0x2F) he (by decide) h2.2.2

theorem classify_content (n : Callee) (args : List Argument) :
    Tag.classify (Bytes.trim (content n.toName args)) = (.expression, content n.toName args) := by
  obtain ⟨-, b, r, -, h1, -, -, h2⟩ := n.exists_content args
  rw [Bytes.trim_of_trimmed (trimmed_content _ _), h1, classify_of_ne h2]

theorem not_commentMark (n : Callee) (args : List Argument) :
    ¬ Tag.commentMark <+: content n.toName args := by
  obtain ⟨-, b, r, -, h1, -, -, h2⟩ := n.exists_content args
  rw [h1]
  simp [Tag.commentMark, h2.1.symm]

theorem reading (n : Callee) (args : List Argument) : Tag.reading (content n.toName args) =
    ⟨.expression, [], content n.toName args, [], false⟩ := by
  rw [reading_of_not_mem (braceless_content _ _).no_open, n.classify_content]

theorem reading_triple (n : Callee) (args : List Argument) :
    Tag.reading (0x7B :: content n.toName args) =
      ⟨.expression, [], content n.toName args, [], true⟩ := by
  rw [Tag.reading, Tag.ofInterior, n.classify_content]
  rfl

end Callee

theorem reading_remark {c : Bytes} (hc : 0x7B ∉ c) (hb : ¬ Bytes.Blank c) :
    (Tag.reading (0x21 :: 0x20 :: c)).kind = .comment ∧
      (Tag.reading (0x21 :: 0x20 :: c)).unescaped = false := by
  obtain ⟨trail, h1, h2, h3⟩ := Bytes.exists_trimEnd c
  have h4 : Bytes.trimEnd c ≠ [] := by
    intro h
    rw [h, List.nil_append] at h1
    exact hb (h1 ▸ h2)
  have h5 : Bytes.Trimmed (0x21 :: 0x20 :: Bytes.trimEnd c) := by
    refine ⟨by simp [Bytes.isBlank], ?_⟩
    rwa [List.getLast?_cons_of_ne_nil (List.cons_ne_nil _ _), List.getLast?_cons_of_ne_nil h4]
  have h6 : Bytes.trim (0x21 :: 0x20 :: c) = 0x21 :: 0x20 :: Bytes.trimEnd c := by
    have h7 : Bytes.trim ([] ++ (0x21 :: 0x20 :: Bytes.trimEnd c ++ trail)) = _ :=
      Bytes.trim_append (by simp [Bytes.Blank]) h5 h2
    rwa [List.nil_append, List.cons_append, List.cons_append, ← h1] at h7
  have h8 : 0x7B ∉ 0x21 :: 0x20 :: c := by simp [hc]
  rw [reading_of_not_mem h8, h6]
  exact ⟨rfl, rfl⟩

theorem reading_opener (id : Name) (args : List Argument) :
    Tag.reading (0x23 :: content id args) = ⟨.opener, [], content id args, [], false⟩ := by
  have h1 := trimmed_content id args
  have h2 : Bytes.Trimmed (0x23 :: content id args) := by
    refine ⟨by simp [Bytes.isBlank], ?_⟩
    rw [List.getLast?_cons_of_ne_nil (by simp [content, id.bytes_ne_nil])]
    exact h1.last
  rw [reading_of_not_mem (by simp [(braceless_content id args).no_open]),
    Bytes.trim_of_trimmed h2, classify_opener]

theorem blockName?_opener (id : Name) (args : List Argument) :
    Template.blockName? (Tag.reading (0x23 :: content id args)).content = some id.bytes := by
  rw [reading_opener]
  exact blockName?_content id args

theorem Name.trimmed (n : Name) : Bytes.Trimmed n.bytes :=
  ⟨fun b hb => n.not_blank b (List.mem_of_mem_head? hb),
    fun b hb => n.not_blank b (List.mem_of_getLast? hb)⟩

theorem reading_closer (id : Name) :
    Tag.reading (0x2F :: id.bytes) = ⟨.closer, [], id.bytes, [], false⟩ := by
  have h2 : Bytes.Trimmed (0x2F :: id.bytes) := by
    refine ⟨by simp [Bytes.isBlank], ?_⟩
    rw [List.getLast?_cons_of_ne_nil id.bytes_ne_nil]
    exact id.trimmed.last
  rw [reading_of_not_mem (by simp [id.braceless.no_open]), Bytes.trim_of_trimmed h2,
    classify_closer, Bytes.trim_of_trimmed id.trimmed]

/-! ## What the delimiter patterns match -/

/-- A tag does not look like a delimiter if a character that is no sign stands first in it. -/
theorem isHead_braced {o body r : Bytes} {b : UInt8} (ho : o = [] ∨ o = [0x7B])
    (hb : body.head? ≠ some 0x7B) (hd : Text.dropBlanks (body ++ Tag.closeMark) = b :: r)
    (hs : b ≠ 0x23 ∧ b ≠ 0x2F) : isHead (Tag.braced (o ++ body)) = false := by
  have h1 : openingLength? (Tag.braced (o ++ body)) = some (Tag.openMark ++ o).length := by
    have h2 : (body ++ Tag.closeMark).head? ≠ some 0x7B := by
      cases body with
      | nil => decide
      | cons x body => exact hb
    rcases ho with rfl | rfl
    · have e : Tag.braced ([] ++ body) = 0x7B :: 0x7B :: (body ++ Tag.closeMark) := by
        simp [Tag.braced, Tag.openMark]
      rw [e, openingLength?_cons_cons, if_pos ⟨rfl, rfl⟩, if_neg h2]
      rfl
    · rfl
  have h3 : (Tag.braced (o ++ body)).drop (Tag.openMark ++ o).length = body ++ Tag.closeMark := by
    have e : Tag.braced (o ++ body) = (Tag.openMark ++ o) ++ (body ++ Tag.closeMark) := by
      simp [Tag.braced]
    rw [e, List.drop_left]
  rw [isHead, h1]
  simp only [h3, hd]
  simp [Side.sign, hs]

theorem Callee.isHead (n : Callee) (args : List Argument) {o : Bytes} (ho : o = [] ∨ o = [0x7B]) :
    isHead (Tag.braced (o ++ content n.toName args)) = false := by
  obtain ⟨c, b, r, x, h1, h2, hb, -, h3⟩ := n.exists_content args
  refine isHead_braced (b := b) (r := r ++ Tag.closeMark) ho ?_ ?_ h3
  · intro h
    exact (braceless_content n.toName args).no_open (List.mem_of_mem_head? h)
  · rw [h1, h2, List.append_assoc, Text.dropBlanks_char hb, ← List.append_assoc, ← h2]
    rfl

theorem isHead_remark (c : Bytes) : isHead (Tag.braced (0x21 :: 0x20 :: c)) = false := by
  have h1 : (0x21 :: 0x20 :: c).head? ≠ some 0x7B := by simp
  exact isHead_braced (o := []) (.inl rfl) h1
    (Text.dropBlanks_ascii (b := 0x21) (by decide) (by decide) _) (by decide)

theorem spells_opener_content (id : Name) (args : List Argument) :
    Spells .opener id.bytes (0x23 :: content id args) :=
  ⟨[], [], Argument.text args, .inl rfl, by simp, tail_text args, rfl⟩

theorem spells_closer_name (id : Name) : Spells .closer id.bytes (0x2F :: id.bytes) := by
  refine ⟨[], [], [], .inl rfl, by simp, ⟨[], rfl, by simp, by simp, by simp⟩, ?_⟩
  rw [List.append_nil]
  rfl

/-! ## The ends of a block before other text -/

theorem fitsTag_opener (id : Name) (args : List Argument) (s : Bytes) :
    Piece.FitsTag (0x23 :: content id args) [] s := by
  have h1 : Braceless (0x23 :: content id args) := .cons (by decide) (braceless_content id args)
  refine fitsTag_bare h1 (by simp [Tag.commentMark]) ?_ ?_
  · rw [Piece.Recognised, reading_opener]
    exact ⟨_, blockName?_content id args, id.word, spells_opener_content id args⟩
  · rw [Tag.Spare, reading_opener]
    rfl

theorem fitsTag_closer (id : Name) {spare s : Bytes}
    (h : spare = [] ∧ s.head? ≠ some 0x7D ∨ spare = [0x7D]) :
    Piece.FitsTag (0x2F :: id.bytes) spare s := by
  have h1 : Braceless (0x2F :: id.bytes) := .cons (by decide) id.braceless
  refine fitsTag_bare h1 (by simp [Tag.commentMark]) ?_ ?_
  · rw [Piece.Recognised, reading_closer]
    exact ⟨id.word, spells_closer_name id⟩
  · rw [Tag.Spare, reading_closer]
    exact h

/-! ## Tokens as pieces -/

namespace Token

def piece : Token → Piece
  | text w _ _ => .text w
  | remark c _ _ => .tag (0x21 :: 0x20 :: c) []
  | comment c _ => .remark c
  | expression true name args => .tag (0x7B :: content name.toName args) [0x7D]
  | expression false name args => .tag (content name.toName args) []
  | opener id args => .tag (0x23 :: content id.toName args) []
  | closer id => .tag (0x2F :: id.bytes) []

theorem bytes_piece (t : Token) : t.piece.bytes = t.render := by
  cases t with
  | expression triple name args => cases triple <;> simp [piece, Piece.bytes, render]
  | _ => simp [piece, Piece.bytes, render]

theorem join_map_piece (ts : List Token) : Piece.join (ts.map piece) = source ts := by
  induction ts with
  | nil => rfl
  | cons t ts ih =>
    rw [List.map_cons, Piece.join_cons, bytes_piece, ih]
    rfl

theorem bracket?_piece (t : Token) : t.piece.bracket? = t.bracket? := by
  cases t with
  | text => rfl
  | comment => rfl
  | remark c hc hb =>
    simp [piece, Piece.bracket?, Tag.bracket?, (reading_remark hc.1 hb).1, bracket?]
  | expression triple name args =>
    cases triple
    · simp [piece, Piece.bracket?, Tag.bracket?, name.reading, bracket?]
    · simp [piece, Piece.bracket?, Tag.bracket?, name.reading_triple, bracket?]
  | opener id args =>
    simp [piece, Piece.bracket?, Tag.bracket?, reading_opener, blockName?_content, bracket?]
  | closer id => simp [piece, Piece.bracket?, Tag.bracket?, reading_closer, bracket?]

theorem brackets_map_piece (ts : List Token) :
    Piece.brackets (ts.map piece) = ts.filterMap bracket? := by
  rw [Piece.brackets, List.filterMap_map]
  exact List.filterMap_congr fun t _ => bracket?_piece t

/-- No token starts with a closing brace. -/
theorem head?_source (ts : List Token) : (source ts).head? ≠ some 0x7D := by
  induction ts with
  | nil => simp [source]
  | cons t ts ih =>
    have e : source (t :: ts) = t.render ++ source ts := rfl
    rw [e]
    cases t with
    | text w hl hb =>
      cases w with
      | nil => exact ih
      | cons b w => exact hb
    | expression triple name args => cases triple <;> simp [render, Tag.braced, Tag.openMark]
    | remark => simp [render, Tag.braced, Tag.openMark]
    | comment => simp [render, Tag.remark, Tag.openMark]
    | opener => simp [render, Tag.braced, Tag.openMark]
    | closer => simp [render, Tag.braced, Tag.openMark]

/-- A token fits before a text that starts with no closing brace. -/
theorem fits (t : Token) {s : Bytes} (hs : s.head? ≠ some 0x7D) : t.piece.Fits s := by
  cases t with
  | text w hl hb => exact .inl hl
  | comment c h => exact Tag.remark_of_not_infix h
  | remark c hc hb =>
    obtain ⟨h1, h2⟩ := reading_remark hc.1 hb
    have h3 : Braceless (0x21 :: 0x20 :: c) :=
      .cons (by decide) (.cons (by decide) ⟨hc.1, hc.2⟩)
    refine fitsTag_bare h3 (by simp [Tag.commentMark]) ?_ ?_
    · rw [Piece.Recognised, h1]
      exact isHead_remark c
    · rw [Tag.Spare, h1, h2]
      rfl
  | expression triple name args =>
    have h1 := braceless_content name.toName args
    cases triple
    · refine fitsTag_bare h1 (name.not_commentMark args) ?_ ?_
      · rw [Piece.Recognised, name.reading]
        exact name.isHead args (o := []) (.inl rfl)
      · rw [Tag.Spare, name.reading]
        rfl
    · refine fitsTag_triple h1 ?_ ?_
      · rw [Piece.Recognised, name.reading_triple]
        exact name.isHead args (.inr rfl)
      · rw [Tag.Spare, name.reading_triple]
        exact .inl ⟨0x7D, by decide, rfl⟩
  | opener id args => exact fitsTag_opener id.toName args s
  | closer id => exact fitsTag_closer id.toName (.inl ⟨rfl, hs⟩)

theorem legible (ts : List Token) : Piece.Legible (ts.map piece) := by
  induction ts with
  | nil => trivial
  | cons t ts ih =>
    refine ⟨?_, ih⟩
    rw [join_map_piece]
    exact t.fits (head?_source ts)

end Token

end ThemeTemplates
