import ThemeTemplates.Proofs.Brackets
import ThemeTemplates.Proofs.Excision
import ThemeTemplates.Proofs.LiveDelimiters

/-! # Texts in pieces

A `Piece` is literal text, a long comment, or another tag with the byte that it takes from the text
behind it. `Piece.Fits p s` says that both recognisers of tags take the piece for what it is if `s`
follows it: the scanner reads it off the text, and the delimiter patterns match the brackets and
nothing else. It keeps holding if the text behind is cut short (`Fits.of_append`), which is what
happens to the body of a block.
-/

namespace ThemeTemplates

set_option autoImplicit false

open Delimiter

/-- A part of a template. -/
inductive Piece
  | text (w : Bytes)
  | remark (body : Bytes)
  | tag (interior spare : Bytes)

namespace Tag

/-- The tag that an interior makes. -/
def reading (interior : Bytes) : Tag := ofInterior [] interior []

theorem ofInterior_eq (interior after : Bytes) :
    ofInterior [] interior after =
      { reading interior with
        after := if (reading interior).unescaped then after.drop 1 else after } := by
  unfold reading ofInterior
  split <;> rfl

/-- What a tag takes from the text behind its closing braces. A closer takes a third brace, any
other tag takes one byte if three braces opened it. -/
def Spare (t : Tag) (spare s : Bytes) : Prop :=
  if t.kind = .closer then spare = [] ∧ s.head? ≠ some 0x7D ∨ spare = [0x7D]
  else if t.unescaped then (∃ b, b ≠ 0x7B ∧ spare = [b]) ∨ spare = [] ∧ s = []
  else spare = []

end Tag

namespace Piece

def bytes : Piece → Bytes
  | text w => w
  | remark body => Tag.remark body
  | tag interior spare => Tag.braced interior ++ spare

def bracket? : Piece → Option Bracket
  | tag interior _ => (Tag.reading interior).bracket?
  | _ => none

/-- Whether the delimiter patterns recognise a tag for what the scanner takes it for. -/
def Recognised (interior : Bytes) : Prop :=
  match (Tag.reading interior).kind with
  | .opener => ∃ name, Template.blockName? (Tag.reading interior).content = some name ∧ Word name ∧
      Spells .opener name interior
  | .closer => Word (Tag.reading interior).content ∧
      Spells .closer (Tag.reading interior).content interior
  | _ => isHead (Tag.braced interior) = false

/-- What a tag satisfies before a text. -/
structure FitsTag (interior spare s : Bytes) : Prop where
  unbroken : Tag.Interior interior
  no_remark : Tag.longComment? (interior ++ Tag.closeMark ++ (spare ++ s)) = none
  no_mark : ¬ Tag.openMark ++ Tag.commentMark <:+: interior
  headless : Headless interior
  recognised : Recognised interior
  spare : (Tag.reading interior).Spare spare s

def Fits : Piece → Bytes → Prop
  | text w, s => Tag.Literal w ∨ Tag.scan w = none ∧ s = []
  | remark body, _ => Tag.Remark body
  | tag interior spare, s => FitsTag interior spare s

/-- The text that pieces make. -/
def join (ps : List Piece) : Bytes := ps.flatMap bytes

/-- Every piece fits before those behind it. -/
def Legible : List Piece → Prop
  | [] => True
  | p :: ps => p.Fits (join ps) ∧ Legible ps

@[simp] theorem join_nil : join [] = [] := rfl

@[simp] theorem join_cons (p : Piece) (ps : List Piece) : join (p :: ps) = p.bytes ++ join ps := rfl

@[simp] theorem join_append (ps qs : List Piece) : join (ps ++ qs) = join ps ++ join qs :=
  List.flatMap_append

/-! ## Text cut short -/

theorem longComment?_of_append {x y : Bytes} (h : Tag.longComment? (x ++ y) = none) :
    Tag.longComment? x = none := by
  unfold Tag.longComment? at h ⊢
  split
  next hm =>
    rw [List.isPrefixOf_iff_prefix] at hm
    rw [if_pos (List.isPrefixOf_iff_prefix.2 (hm.trans (List.prefix_append x y))),
      Option.map_eq_none_iff] at h
    rw [Option.map_eq_none_iff]
    refine Bytes.cut?_of_not_infix h ?_
    rw [List.drop_append_of_le_length hm.length_le]
    exact (List.prefix_append _ _).isInfix
  next => rfl

theorem spare_of_append {t : Tag} {spare x y : Bytes} (h : t.Spare spare (x ++ y)) :
    t.Spare spare x := by
  unfold Tag.Spare at h ⊢
  split
  next hk =>
    rw [if_pos hk] at h
    refine h.imp (fun h1 => ⟨h1.1, fun h2 => h1.2 ?_⟩) id
    obtain ⟨t, rfl⟩ := List.head?_eq_some_iff.1 h2
    rfl
  next hk =>
    rw [if_neg hk] at h
    split
    next hu =>
      rw [if_pos hu] at h
      exact h.imp id fun h1 => ⟨h1.1, (List.append_eq_nil_iff.1 h1.2).1⟩
    next hu => rwa [if_neg hu] at h

theorem Fits.of_append {p : Piece} {x y : Bytes} (h : p.Fits (x ++ y)) : p.Fits x := by
  cases p with
  | text w => exact Or.imp id (fun h1 => ⟨h1.1, (List.append_eq_nil_iff.1 h1.2).1⟩) h
  | remark body => exact h
  | tag interior spare =>
    have h1 : FitsTag interior spare (x ++ y) := h
    refine ⟨h1.unbroken, ?_, h1.no_mark, h1.headless, h1.recognised, spare_of_append h1.spare⟩
    have h2 := h1.no_remark
    rw [← List.append_assoc spare, ← List.append_assoc] at h2
    exact longComment?_of_append h2

theorem Legible.left {ps qs : List Piece} (h : Legible (ps ++ qs)) : Legible ps := by
  induction ps with
  | nil => trivial
  | cons p ps ih =>
    have h1 : p.Fits (join (ps ++ qs)) := h.1
    rw [join_append] at h1
    exact ⟨h1.of_append, ih h.2⟩

theorem Legible.right {ps qs : List Piece} (h : Legible (ps ++ qs)) : Legible qs := by
  induction ps with
  | nil => exact h
  | cons p ps ih => exact ih h.2

/-! ## What the scanner reads -/

theorem scan_braced {interior z : Bytes} (hi : Tag.Interior interior)
    (hl : Tag.longComment? (interior ++ Tag.closeMark ++ z) = none) :
    Tag.scan (Tag.braced interior ++ z) = some (Tag.ofInterior [] interior z) := by
  rw [Tag.scan, Tag.braced_append, Bytes.cut?_mark]
  simp only [hl]
  rw [List.append_assoc, Bytes.cut?_append (hi.passes _), Bytes.cut?_mark]
  simp

theorem FitsTag.scan {interior spare s : Bytes} (h : FitsTag interior spare s) :
    Tag.scan ((tag interior spare).bytes ++ s) = some (Tag.ofInterior [] interior (spare ++ s)) := by
  have h1 := scan_braced h.unbroken h.no_remark
  rwa [← List.append_assoc] at h1

/-- A tag that is no closer leaves the text behind the piece. -/
theorem FitsTag.after {interior spare s : Bytes} (h : FitsTag interior spare s)
    (hk : (Tag.reading interior).kind ≠ .closer) :
    Tag.ofInterior [] interior (spare ++ s) = { Tag.reading interior with after := s } := by
  have h1 := h.spare
  rw [Tag.Spare, if_neg hk] at h1
  rw [Tag.ofInterior_eq]
  split at h1
  next hu =>
    rw [if_pos hu]
    rcases h1 with ⟨b, -, rfl⟩ | ⟨rfl, rfl⟩ <;> rfl
  next hu =>
    rw [if_neg hu, h1]
    rfl

theorem scan_remark {body : Bytes} (h : Tag.Remark body) (s : Bytes) :
    Tag.scan (Tag.remark body ++ s) =
      some ⟨.comment, [], Bytes.trim (Tag.commentMark ++ body), s, false⟩ := by
  rw [Tag.scan, Tag.remark, List.append_assoc, Bytes.cut?_mark]
  simp only [Tag.longComment?_remark h]

/-! ## What the delimiter patterns match -/

theorem literal_singleton {b : UInt8} (hb : b ≠ 0x7B) : Tag.Literal [b] := by
  refine ⟨?_, by simpa using hb⟩
  rintro ⟨x, y, h⟩
  have h1 := congrArg List.length h
  simp only [List.length_append, Tag.openMark, List.length_cons, List.length_nil] at h1
  omega

theorem literal_of_spare {t : Tag} {spare s : Bytes} (h : t.Spare spare s) :
    Tag.Literal spare := by
  unfold Tag.Spare at h
  split at h
  next =>
    rcases h with ⟨rfl, -⟩ | rfl
    · exact Tag.Literal.nil
    · exact literal_singleton (by decide)
  next =>
    split at h
    next =>
      rcases h with ⟨b, hb, rfl⟩ | ⟨rfl, -⟩
      · exact literal_singleton hb
      · exact Tag.Literal.nil
    next =>
      rw [h]
      exact Tag.Literal.nil

section
variable {interior spare s : Bytes} {side : Side} {name : Bytes}

theorem FitsTag.live_of_none (h : FitsTag interior spare s)
    (h0 : length? side name (Tag.braced interior ++ (spare ++ s)) = none) (offset : Nat) :
    Block.live side name offset ((tag interior spare).bytes ++ s) =
      Block.live side name (offset + (tag interior spare).bytes.length) s := by
  rw [bytes, List.append_assoc, Block.live_tag h.no_remark h.no_mark h.headless h0,
    Block.live_literal (literal_of_spare h.spare), List.length_append, Nat.add_assoc]

theorem FitsTag.live_of_spells (h : FitsTag interior spare s) (hs : Spells side name interior)
    (offset : Nat) :
    Block.live side name offset ((tag interior spare).bytes ++ s) =
      ⟨offset, offset + ((Tag.braced interior).length + spill (spare ++ s))⟩ ::
        Block.live side name (offset + (tag interior spare).bytes.length) s := by
  rw [bytes, List.append_assoc, Block.live_delimiter h.no_remark h.no_mark hs,
    Block.live_literal (literal_of_spare h.spare), List.length_append, Nat.add_assoc]

theorem length?_of_plain (h : isHead (Tag.braced interior) = false) (z : Bytes) :
    length? side name (Tag.braced interior ++ z) = none := by
  have e1 : Tag.braced interior ++ z = Tag.openMark ++ interior ++ 0x7D :: ([0x7D] ++ z) := by
    simp [Tag.braced, Tag.closeMark]
  have e2 : Tag.braced interior = Tag.openMark ++ interior ++ 0x7D :: [0x7D] := rfl
  rw [e2, isHead_append_brace] at h
  rw [e1]
  exact length?_of_not_head (by rwa [isHead_append_brace])

end

/-- A delimiter that starts a text has closing braces behind its opening ones. -/
theorem closeMark_of_length? {side : Side} {name u : Bytes} (hw : Word name)
    (h : (length? side name u).isSome) : Tag.closeMark <:+: u.drop 2 := by
  obtain ⟨k, hk⟩ := Option.isSome_iff_exists.1 h
  obtain ⟨body, close, r, rfl, -, hc, -, t, rfl⟩ := exists_of_length? hw.brace_not_mem hk
  have h1 : Tag.closeMark <+: close := by
    rcases hc with rfl | rfl
    · exact List.prefix_refl _
    · exact ⟨[0x7D], rfl⟩
  obtain ⟨x, rfl⟩ := h1
  exact ⟨t, x ++ r, by simp⟩

/-- Text without a tag has no delimiter. -/
theorem nowhere_of_scan_eq_none {w : Bytes} (h : Tag.scan w = none) {side : Side} {name : Bytes}
    (hw : Word name) : Bytes.Nowhere (fun t => (length? side name t).isSome) w [] := by
  unfold Tag.scan at h
  split at h
  next hc =>
    intro u hu hne h1
    rw [List.append_nil] at h1
    refine Bytes.cut?_eq_none_iff.1 hc (List.IsInfix.trans ?_ hu.isInfix)
    exact (Block.openMark_prefix_of_length? h1).isInfix
  next before inner hc =>
    split at h
    next => cases h
    next =>
      rw [Option.map_eq_none_iff, Bytes.cut?_eq_none_iff] at h
      have e := Bytes.eq_of_cut? hc
      have h1 := Tag.literal_of_passes (Bytes.passes_of_cut? hc)
      rw [e, List.append_assoc]
      refine Bytes.nowhere_append.2 ⟨Block.nowhere_of_literal h1 side name _, ?_⟩
      intro u hu hne h2
      rw [List.append_nil] at h2
      refine h ((closeMark_of_length? hw h2).trans ?_)
      have h3 : u.drop 2 <:+ Tag.openMark ++ inner := (List.drop_suffix 2 u).trans hu
      have h4 : (u.drop 2).length ≤ inner.length := by
        have h5 := hu.length_le
        rw [List.length_drop]
        simp only [Tag.openMark, List.length_append, List.length_cons, List.length_nil] at h5
        omega
      exact (List.suffix_of_suffix_length_le h3 (List.suffix_append _ _) h4).isInfix

theorem live_of_scan_eq_none {w : Bytes} (h : Tag.scan w = none) {side : Side} {name : Bytes}
    (hw : Word name) (offset : Nat) : Block.live side name offset w = [] := by
  have h1 : spansFrom (length? side name) offset 0 (w ++ []) =
      spansFrom (length? side name) (offset + w.length) 0 [] :=
    spansFrom_append (nowhere_of_scan_eq_none h hw)
  rw [List.append_nil] at h1
  rw [Block.live, h1]
  rfl

/-! ## Pieces that are brackets -/

end Piece

/-- The bracket that the delimiters of one side are. -/
def Delimiter.Side.bracket : Side → Bytes → Bracket
  | .opener => .opening
  | .closer => .closing

namespace Piece

theorem bracket?_of_opener {interior name : Bytes} (spare : Bytes)
    (hk : (Tag.reading interior).kind = .opener)
    (hn : Template.blockName? (Tag.reading interior).content = some name) :
    (tag interior spare).bracket? = some (.opening name) := by
  simp [bracket?, Tag.bracket?, hk, hn]

theorem bracket?_of_closer {interior : Bytes} (spare : Bytes)
    (hk : (Tag.reading interior).kind = .closer) :
    (tag interior spare).bracket? = some (.closing (Tag.reading interior).content) := by
  simp [bracket?, Tag.bracket?, hk]

section
variable {interior spare s : Bytes} {side : Side} {name : Bytes}

/-- A tag is a bracket, and spells the delimiter of it, or no pattern matches it. -/
theorem FitsTag.cases (h : FitsTag interior spare s) :
    (∃ side name, (tag interior spare).bracket? = some (side.bracket name) ∧ Word name ∧
      Spells side name interior) ∨
    (tag interior spare).bracket? = none ∧ isHead (Tag.braced interior) = false := by
  have h1 := h.recognised
  unfold Recognised at h1
  split at h1
  next hk =>
    obtain ⟨name, hn, hw, hs⟩ := h1
    exact .inl ⟨.opener, name, bracket?_of_opener spare hk hn, hw, hs⟩
  next hk => exact .inl ⟨.closer, _, bracket?_of_closer spare hk, h1⟩
  next hk hk' =>
    refine .inr ⟨?_, h1⟩
    cases hc : (Tag.reading interior).kind with
    | opener => exact absurd hc hk
    | closer => exact absurd hc hk'
    | comment => simp [bracket?, Tag.bracket?, hc]
    | expression => simp [bracket?, Tag.bracket?, hc]

theorem kind_of_closing (h : (tag interior spare).bracket? = some (.closing name)) :
    (Tag.reading interior).kind = .closer := by
  simp only [bracket?, Tag.bracket?] at h
  split at h
  next => cases h
  next hk => exact hk
  next => cases h

theorem bracket_inj {side side' : Side} {name name' : Bytes}
    (h : side.bracket name = side'.bracket name') : side = side' ∧ name = name' := by
  cases side <;> cases side' <;> cases h <;> exact ⟨rfl, rfl⟩

/-- A piece that is another bracket or none is passed over. -/
theorem Fits.live_of_ne {p : Piece} (h : p.Fits s) (side : Side) (hw : Word name)
    (hb : p.bracket? ≠ some (side.bracket name)) (offset : Nat) :
    Block.live side name offset (p.bytes ++ s) =
      Block.live side name (offset + p.bytes.length) s := by
  cases p with
  | text w =>
    rcases h with h | ⟨h, rfl⟩
    · exact Block.live_literal h side name s offset
    · rw [List.append_nil, bytes, live_of_scan_eq_none h hw]
      rfl
  | remark body => exact Block.live_remark h hw.brace_not_mem s offset
  | tag interior spare =>
    have h1 : FitsTag interior spare s := h
    refine h1.live_of_none ?_ offset
    rcases h1.cases with ⟨side', name', h2, h3, h4⟩ | ⟨-, h2⟩
    · refine length?_of_spells_ne h4 h3 hw (fun hs hn => hb ?_) _
      rw [h2, hs, hn]
    · exact length?_of_plain h2 _

/-- A piece that is the bracket comes first. A closer ends where the piece does. -/
theorem Fits.live_of_eq {p : Piece} (h : p.Fits s) (side : Side)
    (hb : p.bracket? = some (side.bracket name)) (offset : Nat) :
    ∃ stop, Block.live side name offset (p.bytes ++ s) =
      ⟨offset, stop⟩ :: Block.live side name (offset + p.bytes.length) s ∧
        (side = .closer → stop = offset + p.bytes.length) := by
  cases p with
  | text w => cases hb
  | remark body => cases hb
  | tag interior spare =>
    have h1 : FitsTag interior spare s := h
    rcases h1.cases with ⟨side', name', h2, -, h4⟩ | ⟨h2, -⟩
    · rw [h2, Option.some.injEq] at hb
      obtain ⟨rfl, rfl⟩ := bracket_inj hb
      refine ⟨_, h1.live_of_spells h4 offset, ?_⟩
      rintro rfl
      have h5 := h1.spare
      rw [Tag.Spare, if_pos (kind_of_closing h2)] at h5
      rw [bytes, List.length_append]
      rcases h5 with ⟨rfl, h5⟩ | rfl
      · rw [List.nil_append, spill, if_neg h5]
        rfl
      · rfl
    · rw [h2] at hb
      cases hb

end

/-- Brackets take up room. -/
theorem length_pos_of_bracket? {p : Piece} {b : Bracket} (h : p.bracket? = some b) :
    0 < p.bytes.length := by
  cases p with
  | text w => cases h
  | remark body => cases h
  | tag interior spare =>
    rw [bytes, List.length_append, Tag.length_braced]
    omega

end Piece

end ThemeTemplates
