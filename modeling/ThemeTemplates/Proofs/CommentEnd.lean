import ThemeTemplates.Proofs.Pieces

/-! # Where a comment between hyphens ends

A comment that starts and ends with two hyphens is closed by its own braces if other text stands
between them. If the two pairs of hyphens share one, or are one pair, the closing mark of a long
comment is looked for behind them, and the first one of the text that follows closes the comment
(`scan_hyphened`). Only where there is none do its own braces count.
-/

namespace ThemeTemplates.Tag

set_option autoImplicit false

def hyphens : Bytes := [0x2D, 0x2D]

/-- Two pairs of hyphens at the ends share a hyphen at least, or text stands between them. -/
theorem hyphened_cases {c : Bytes} (h1 : hyphens <+: c) (h2 : hyphens <:+ c) :
    (∃ d, (d = [] ∨ d = [0x2D]) ∧ c = hyphens ++ d) ∨ ∃ m, c = hyphens ++ (m ++ hyphens) := by
  obtain ⟨d, rfl⟩ := h1
  by_cases hd : hyphens.length ≤ d.length
  · obtain ⟨m, rfl⟩ := List.suffix_of_suffix_length_le h2 (List.suffix_append _ d) hd
    exact .inr ⟨m, rfl⟩
  · left
    match d, hd with
    | [], _ => exact ⟨[], .inl rfl, rfl⟩
    | [b], _ =>
      obtain ⟨u, hu⟩ := h2
      have h3 : b = 0x2D := by
        have h4 := congrArg List.getLast? hu
        simpa [hyphens] using h4.symm
      exact ⟨[b], .inr (by rw [h3]), rfl⟩
    | _ :: _ :: _, hd => exact absurd (Nat.le_add_left _ _) hd

/-- Hyphens apart from each other make a long comment. -/
theorem scan_parted {m : Bytes} (hm : ¬ closeMark <:+: m) (s : Bytes) :
    scan (braced (0x21 :: (hyphens ++ (m ++ hyphens))) ++ s) =
      some ⟨.comment, [], Bytes.trim (commentMark ++ m), s, false⟩ := by
  have h1 : Remark m := remark_of_not_infix fun h =>
    hm (List.IsInfix.trans ⟨[0x2D, 0x2D], [], rfl⟩ h)
  have e : braced (0x21 :: (hyphens ++ (m ++ hyphens))) = remark m := by
    rw [remark_eq_braced]
    simp [commentMark, hyphens]
  rw [e, Piece.scan_remark h1]

/-- No closing mark of a long comment starts in the hyphens and braces themselves. -/
theorem cut?_shared {d : Bytes} (hd : d = [] ∨ d = [0x2D]) (s : Bytes) :
    Bytes.cut? commentEnd (d ++ closeMark ++ s) =
      (Bytes.cut? commentEnd s).map fun p => (d ++ closeMark ++ p.1, p.2) := by
  refine Bytes.cut?_append ?_
  rcases hd with rfl | rfl
  all_goals simp [Bytes.nowhere_cons, Bytes.Nowhere.nil, closeMark, commentEnd]

/-- Hyphens that are shared open a comment, and the closing mark is looked for behind them. -/
theorem exists_scan_shared {d : Bytes} (hd : d = [] ∨ d = [0x2D]) (s : Bytes) :
    ∃ content, scan (braced (0x21 :: (hyphens ++ d)) ++ s) = some ⟨.comment, [], content,
      ((Bytes.cut? commentEnd s).map Prod.snd).getD s, false⟩ := by
  have e : braced (0x21 :: (hyphens ++ d)) ++ s =
      openMark ++ (commentMark ++ (d ++ closeMark ++ s)) := by
    simp [braced, commentMark, hyphens]
  have hm : commentMark.isPrefixOf (commentMark ++ (d ++ closeMark ++ s)) = true :=
    List.isPrefixOf_iff_prefix.2 (List.prefix_append _ _)
  have hl : longComment? (commentMark ++ (d ++ closeMark ++ s)) =
      (Bytes.cut? commentEnd s).map fun p => (commentMark ++ (d ++ closeMark ++ p.1), p.2) := by
    rw [longComment?, if_pos hm, List.drop_left, cut?_shared hd, Option.map_map]
    rfl
  cases hc : Bytes.cut? commentEnd s with
  | some p =>
    refine ⟨Bytes.trim (commentMark ++ (d ++ closeMark ++ p.1)), ?_⟩
    rw [e, scan, Bytes.cut?_mark]
    simp only [hl, hc, Option.map_some]
    rfl
  | none =>
    -- the tag is short, and what it holds still makes it a comment
    have hi : Interior (0x21 :: (hyphens ++ d)) := by
      rcases hd with rfl | rfl <;> exact ⟨by decide, by decide⟩
    have hn : longComment? (0x21 :: (hyphens ++ d) ++ closeMark ++ s) = none := by
      have e1 : 0x21 :: (hyphens ++ d) ++ closeMark ++ s =
          commentMark ++ (d ++ closeMark ++ s) := by simp [commentMark, hyphens]
      rw [e1, hl, hc]
      rfl
    rw [Piece.scan_braced hi hn]
    rcases hd with rfl | rfl
    · exact ⟨_, rfl⟩
    · exact ⟨_, rfl⟩

/-- A comment that starts and ends with two hyphens ends with its own braces if the hyphens do not
overlap. If they do, it runs on to the first closing mark of a long comment in the text behind, and
ends with its own braces if there is none. -/
theorem scan_hyphened {p c : Bytes} (hp : Literal p) (hc : ¬ closeMark <:+: c)
    (h1 : hyphens <+: c) (h2 : hyphens <:+ c) (s : Bytes) :
    ∃ t, scan (p ++ (braced (0x21 :: c) ++ s)) = some t ∧ t.kind = .comment ∧ t.before = p ∧
      t.after = (if 4 ≤ c.length then s else ((Bytes.cut? commentEnd s).map Prod.snd).getD s) ∧
      (t.after = s ↔ 4 ≤ c.length ∨ ¬ commentEnd <:+: s) := by
  rw [scan_append hp]
  rcases hyphened_cases h1 h2 with ⟨d, hd, rfl⟩ | ⟨m, rfl⟩
  · obtain ⟨content, hs⟩ := exists_scan_shared hd s
    have hl : ¬ 4 ≤ (hyphens ++ d).length := by rcases hd with rfl | rfl <;> decide
    refine ⟨_, by rw [hs, Option.map_some], rfl, List.append_nil p, (if_neg hl).symm, ?_⟩
    rw [or_iff_right hl, ← Bytes.cut?_eq_none_iff]
    cases he : Bytes.cut? commentEnd s with
    | none => exact iff_of_true rfl rfl
    | some q =>
      refine iff_of_false (fun h => ?_) (by simp)
      have h3 : s.length = q.1.length + commentEnd.length + q.2.length := Bytes.length_of_cut? he
      have h4 : q.2.length = s.length := congrArg List.length h
      have h5 : commentEnd.length = 4 := rfl
      omega
  · have hm : ¬ closeMark <:+: m := fun h =>
      hc (h.trans ⟨hyphens, hyphens, by rw [List.append_assoc]⟩)
    have hl : 4 ≤ (hyphens ++ (m ++ hyphens)).length := by
      simp only [hyphens, List.length_append, List.length_cons, List.length_nil]
      omega
    exact ⟨_, by rw [scan_parted hm, Option.map_some], rfl, List.append_nil p, (if_pos hl).symm,
      iff_of_true rfl (.inl hl)⟩

theorem scan_hyphened_apart :
    let c := Utf8.ofString "-- \x7b\x7bx--"
    let s := Utf8.ofString "b\x7b\x7b!-- y --\x7d\x7d"
    Literal [0x61] ∧ ¬ closeMark <:+: c ∧ hyphens <+: c ∧ hyphens <:+ c ∧
      ∃ t, scan ([0x61] ++ (braced (0x21 :: c) ++ s)) = some t ∧ t.kind = .comment ∧
        t.before = [0x61] ∧ t.after = s := by
  intro c s
  have hp : Literal [0x61] := ⟨by decide, by decide⟩
  have hc : ¬ closeMark <:+: c := by decide +kernel
  have h1 : hyphens <+: c := by decide +kernel
  have h2 : hyphens <:+ c := by decide +kernel
  obtain ⟨t, h3, h4, h5, h6, -⟩ := scan_hyphened hp hc h1 h2 s
  exact ⟨hp, hc, h1, h2, t, h3, h4, h5, h6.trans (if_pos (by decide +kernel))⟩

/-- One pair of hyphens, and the comment takes the text up to the end of the next comment. -/
theorem scan_hyphened_overlap :
    let s := Utf8.ofString "a\x7b\x7bb\x7d\x7d\x7b\x7b!-- c --\x7d\x7dd"
    (¬ closeMark <:+: hyphens ∧ hyphens <+: hyphens ∧ hyphens <:+ hyphens) ∧
      (∃ content, scan (braced (0x21 :: hyphens) ++ s) =
        some ⟨.comment, [], content, [0x64], false⟩) ∧
      ¬ ∃ t, scan (braced (0x21 :: hyphens) ++ s) = some t ∧ t.kind = .comment ∧
        t.before = [] ∧ t.after = s := by
  intro s
  have h : scan (braced (0x21 :: hyphens) ++ s) = some ⟨.comment, [],
      Utf8.ofString "!--\x7d\x7da\x7b\x7bb\x7d\x7d\x7b\x7b!-- c", [0x64], false⟩ := by
    decide +kernel
  refine ⟨by decide, ⟨_, h⟩, ?_⟩
  rintro ⟨t, h1, -, -, h2⟩
  rw [h] at h1
  cases h1
  exact absurd h2 (by decide +kernel)

end ThemeTemplates.Tag
