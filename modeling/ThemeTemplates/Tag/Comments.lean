import ThemeTemplates.Tag

/-! # Long comments of a text

The stretches of a text that its long comments take. A comment starts at two opening braces that
the comment mark follows; other opening braces are passed over. A comment that is never closed ends
the list.
-/

namespace ThemeTemplates.Tag

set_option autoImplicit false

/-- The comments of a text whose first byte has the position `offset`. -/
def commentSpansFrom (offset : Nat) (src : Bytes) : List Span :=
  match _h : Bytes.cut? openMark src with
  | none => []
  | some (before, inner) =>
    let start := offset + before.length
    if commentMark.isPrefixOf inner then
      match _h1 : longComment? inner with
      | none => []
      | some (body, after) =>
        let stop := start + openMark.length + body.length + commentEnd.length
        ⟨start, stop⟩ :: commentSpansFrom stop after
    else commentSpansFrom (start + openMark.length) inner
termination_by src.length
decreasing_by
  · have h2 := Bytes.length_of_cut? _h
    rw [h2, eq_of_longComment? _h1]
    simp only [openMark, commentEnd, List.length_append, List.length_cons, List.length_nil]
    omega
  · rw [Bytes.length_of_cut? _h]
    simp only [openMark, List.length_cons, List.length_nil]
    omega

/-- The stretches that the long comments of a text take, in order. -/
def commentSpans (src : Bytes) : List Span := commentSpansFrom 0 src

end ThemeTemplates.Tag
