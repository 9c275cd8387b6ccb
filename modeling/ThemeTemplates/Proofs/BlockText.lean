import ThemeTemplates.Proofs.StackParser

/-! # The text inside and behind a block

The body of a block starts right behind the two braces of the opener and ends at those of the
closer. But the pattern of a closer asks for two or three closing braces, whichever number opened
the tag. So a closing brace that starts the text behind `{{/name}}` goes with the closer, and the
text around the block has lost it.

`Template.compile_wrap`: a body without tags keeps all of its text, and the text behind the block is
kept whole just when no closing brace starts it.
-/

namespace ThemeTemplates

set_option autoImplicit false

open Template (Fragment)

/-! ## What a closer takes -/

namespace Delimiter

/-- Behind its two braces a closer takes a third one, if there is one, and nothing else. -/
theorem take_spill_cases (z : Bytes) :
    z.take (spill z) = [] ∧ (z.drop (spill z)).head? ≠ some 0x7D ∨ z.take (spill z) = [0x7D] := by
  unfold spill
  split
  next h =>
    obtain ⟨r, rfl⟩ := List.head?_eq_some_iff.1 h
    exact .inr rfl
  next h => exact .inl ⟨rfl, h⟩

theorem drop_spill_eq_self_iff {z : Bytes} : z.drop (spill z) = z ↔ z.head? ≠ some 0x7D := by
  unfold spill
  split
  next h =>
    obtain ⟨r, rfl⟩ := List.head?_eq_some_iff.1 h
    simp
  next h => exact iff_of_true rfl h

end Delimiter

open Delimiter

/-! ## The pieces of a block -/

/-- A block with text in it. -/
def BlockName.wrap (id : BlockName) (args : List Argument) (body : Bytes) : Bytes :=
  (Token.opener id args).render ++ (body ++ (Token.closer id).render)

/-- The pieces of a block and of the text behind it. The closer has the brace that it takes. -/
def BlockName.pieces (id : BlockName) (args : List Argument) (body text : Bytes) : List Piece :=
  [.tag (0x23 :: content id.toName args) [], .text body,
    .tag (0x2F :: id.bytes) (text.take (spill text)), .text (text.drop (spill text))]

section
variable (id : BlockName) (args : List Argument) {body text : Bytes}

theorem BlockName.join_pieces (body text : Bytes) :
    Piece.join (id.pieces args body text) = id.wrap args body ++ text := by
  have h1 : text.take (spill text) ++ text.drop (spill text) = text := List.take_append_drop _ _
  simp [BlockName.pieces, BlockName.wrap, Token.render, Piece.bytes, h1]

theorem BlockName.legible_pieces (hb : Tag.Literal body) (ht : ¬ Tag.openMark <:+: text) :
    Piece.Legible (id.pieces args body text) := by
  have h1 : Tag.scan (text.drop (spill text)) = none := by
    have h2 := (List.drop_suffix (spill text) text).isInfix
    rw [Tag.scan, Bytes.cut?_eq_none_iff.2 fun h => ht (h.trans h2)]
  have h3 : Piece.join [.text (text.drop (spill text))] = text.drop (spill text) :=
    List.append_nil _
  -- the closer is the one piece that depends on the text behind it
  refine ⟨fitsTag_opener id.toName args _, .inl hb, fitsTag_closer id.toName ?_, .inr ⟨h1, rfl⟩,
    trivial⟩
  rw [h3]
  exact take_spill_cases text

end

/-! ## What a block and the text behind it compile to -/

section
variable {Context : Type} (functions : Functions Context) (id : BlockName) (args : List Argument)
  {body text : Bytes}

theorem BlockName.builds_pieces (body text : Bytes) :
    Piece.Builds functions 0 (id.pieces args body text)
      ⟨text.drop (spill text), [id.node functions false args 0 body [] none]⟩ := by
  have hi : Piece.Builds functions 0 [.text body] (Fragment.push body none ⟨[], []⟩) :=
    .text (.nil _)
  have hr : Piece.Builds functions 0 [.text (text.drop (spill text))]
      (Fragment.push (text.drop (spill text)) none ⟨[], []⟩) := .text (.nil _)
  have hp : (Piece.tag (0x2F :: id.bytes) (text.take (spill text))).bracket? =
      some (.closing id.bytes) := by
    rw [Piece.bracket?_of_closer _ (by rw [reading_closer]), reading_closer]
  have h1 : Piece.Builds functions 0 (id.pieces args body text) (Fragment.push []
      (some (StackParser.compiledBlock functions id args 0 (Fragment.push body none ⟨[], []⟩)))
      (Fragment.push (text.drop (spill text)) none ⟨[], []⟩)) :=
    .block (by rw [reading_opener]) (blockName?_opener id.toName args) hp hi hr
  rw [StackParser.compiledBlock_of_forall functions id args 0 (by simp [Fragment.push])] at h1
  simpa [Fragment.push] using h1

theorem BlockName.fragment_wrap (hb : Tag.Literal body) (ht : ¬ Tag.openMark <:+: text) :
    Template.fragment functions 0 (id.wrap args body ++ text) =
      .ok ⟨text.drop (spill text), [id.node functions false args 0 body [] none]⟩ := by
  rw [← id.join_pieces args]
  exact (id.builds_pieces functions args body text).fragment (id.legible_pieces args hb ht)

/-- A body without tags comes out as the block of a node, and the text behind the block as that of
the root, but for a closing brace that starts it. -/
theorem Template.compile_wrap (hb : Tag.Literal body) (ht : ¬ Tag.openMark <:+: text)
    (name : String) :
    ∃ root child, Template.compile functions (id.wrap args body ++ text) name = .ok root ∧
      root.children = [child] ∧ child.name = id.string ∧ child.block = body ∧
      child.children = [] ∧ root.block = text.drop (spill text) ∧
      (root.block = text ↔ text.head? ≠ some 0x7D) := by
  let child := id.node functions false args 0 body [] none
  refine ⟨Template.rootNode functions name ⟨text.drop (spill text), [child]⟩, child, ?_, rfl, rfl,
    rfl, rfl, rfl, drop_spill_eq_self_iff⟩
  rw [Template.compile_eq, id.fragment_wrap functions args hb ht]
  rfl

end

theorem Template.compile_wrap_braces :
    ∃ (id : BlockName) (body text : Bytes),
      id.wrap [] body ++ text = Utf8.ofString "{{#a}}x\x7d{{/a}} y \x7b" ∧
      Tag.Literal body ∧ ¬ Tag.openMark <:+: text ∧ text.head? ≠ some 0x7D ∧
      ∃ root child, Template.compile ([] : Functions Unit) (id.wrap [] body ++ text) "t" =
          .ok root ∧
        root.children = [child] ∧ child.name = id.string ∧ child.block = body ∧
        child.children = [] ∧ root.block = text.drop (spill text) ∧
        (root.block = text ↔ text.head? ≠ some 0x7D) := by
  let id : BlockName := ⟨⟨['a'], by simp, by simp [Text.isBlank, isDelimiter]⟩, by decide⟩
  have hb : Tag.Literal (Utf8.ofString "x\x7d") := ⟨by decide, by decide⟩
  have ht : ¬ Tag.openMark <:+: Utf8.ofString " y \x7b" := by decide
  exact ⟨id, _, _, by decide, hb, ht, by decide, Template.compile_wrap [] id [] hb ht "t"⟩

/-- A closing brace of the text goes with the closer of a block right before it. -/
theorem Template.compile_wrap_swallowed :
    ∃ (id : BlockName) (body text : Bytes),
      id.wrap [] body ++ text = Utf8.ofString "{{#a}}x{{/a}}\x7dy" ∧
      id.string = "a" ∧ body = Utf8.ofString "x" ∧ text = Utf8.ofString "\x7dy" ∧
      Tag.Literal body ∧ ¬ Tag.openMark <:+: text ∧
      ∃ root, Template.compile ([] : Functions Unit) (id.wrap [] body ++ text) "test" = .ok root ∧
        root.block = Utf8.ofString "y" ∧ root.block ≠ text := by
  let id : BlockName := ⟨⟨['a'], by simp, by simp [Text.isBlank, isDelimiter]⟩, by decide⟩
  have h1 : (Template.compile ([] : Functions Unit)
      (Utf8.ofString "{{#a}}x{{/a}}\x7dy") "test").toOption.map Node.block =
        some (Utf8.ofString "y") := by
    decide +kernel
  obtain ⟨root, hr, hy⟩ := Template.exists_of_toOption h1
  refine ⟨id, _, _, by decide, rfl, rfl, rfl, ⟨by decide, by decide⟩, by decide, root, hr, hy, ?_⟩
  rw [hy]
  decide

end ThemeTemplates
