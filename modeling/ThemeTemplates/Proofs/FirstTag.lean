import ThemeTemplates.Proofs.Excision
import ThemeTemplates.Proofs.Fields

/-! # Where the first tag stands

A text has a tag just when closing braces stand somewhere behind its first opening braces. The text
of the tag starts at these, so all before them is literal, and what the tag holds is a part of its
text (`Takes`).

Literal text in front stays in front when a tag is cut out behind it. So each tag that scanning and
excising finds stands behind the text before its forerunners (`pairwise_scanAll`).
-/

namespace ThemeTemplates

set_option autoImplicit false

theorem Bytes.trim_isInfix (s : Bytes) : trim s <:+: s := by
  obtain ⟨lead, trail, e, -⟩ := exists_trim s
  exact ⟨lead, trail, by rw [List.append_assoc]; exact e.symm⟩

namespace Tag

/-! ## What a tag holds -/

theorem classify_isInfix (content : Bytes) : (classify content).2 <:+: content := by
  unfold classify
  split
  next => exact List.infix_refl _
  next =>
    split
    next r _ => exact (List.suffix_cons _ r).isInfix
    next r _ => exact (Bytes.trim_isInfix r).trans (List.suffix_cons _ r).isInfix
    next => exact List.infix_refl _

theorem content_ofInterior_isInfix (before interior after : Bytes) :
    (ofInterior before interior after).content <:+: interior := by
  unfold ofInterior
  split
  next r =>
    have h1 := (classify_isInfix (Bytes.trim r)).trans (Bytes.trim_isInfix r)
    exact h1.trans (List.suffix_cons _ r).isInfix
  next => exact (classify_isInfix _).trans (Bytes.trim_isInfix _)

/-- A tag holds a part of what stands between its braces. -/
theorem exists_interior_of_scan {src : Bytes} {t : Tag} (h : scan src = some t) :
    ∃ interior dropped, src = t.before ++
        (openMark ++ (interior ++ (closeMark ++ (dropped ++ t.after)))) ∧
      t.content <:+: interior := by
  unfold scan at h
  split at h
  next => cases h
  next before inner h1 =>
    have e := Bytes.eq_of_cut? h1
    split at h
    next body after h2 =>
      cases h
      refine ⟨body ++ [0x2D, 0x2D], [], ?_, ?_⟩
      · rw [e, eq_of_longComment? h2]
        simp [commentEnd, closeMark]
      · exact (Bytes.trim_isInfix body).trans (List.prefix_append _ _).isInfix
    next =>
      obtain ⟨⟨interior, after⟩, h3, rfl⟩ := Option.map_eq_some_iff.1 h
      obtain ⟨dropped, h4⟩ := exists_ofInterior_after before interior after
      refine ⟨interior, dropped, ?_, content_ofInterior_isInfix before interior after⟩
      rw [ofInterior_before, e, Bytes.eq_of_cut? h3, ← h4]
      simp

/-- The tag `t` takes the stretch `text` of a source, from the first opening braces of it on. -/
structure Takes (src : Bytes) (t : Tag) (text : Bytes) : Prop where
  source : src = t.before ++ (text ++ t.after)
  opened : openMark <+: text
  first : Bytes.Passes openMark t.before (text ++ t.after)
  length : 4 ≤ text.length
  content : t.content <:+: text.drop openMark.length

theorem exists_takes {src : Bytes} {t : Tag} (h : scan src = some t) : ∃ text, Takes src t text := by
  obtain ⟨interior, dropped, e, hc⟩ := exists_interior_of_scan h
  refine ⟨openMark ++ (interior ++ (closeMark ++ dropped)), ?_, ?_, ?_, ?_, ?_⟩
  · rw [e]
    simp only [List.append_assoc]
  · exact List.prefix_append _ _
  · exact (literal_before h).passes _
  · simp only [openMark, closeMark, List.length_append, List.length_cons, List.length_nil]
    omega
  · rw [List.drop_left]
    exact hc.trans (List.prefix_append _ _).isInfix

/-! ## Whether there is a tag -/

/-- Only the first opening braces count: closing braces behind later ones stand behind these too. -/
theorem scan_eq_none_iff_first {src : Bytes} : scan src = none ↔
    ¬ openMark <:+: src ∨ ∃ before inner, src = before ++ (openMark ++ inner) ∧
      Bytes.Passes openMark before (openMark ++ inner) ∧ ¬ closeMark <:+: inner := by
  cases hc : Bytes.cut? openMark src with
  | none =>
    have h1 : scan src = none := by rw [scan, hc]
    exact iff_of_true h1 (.inl (Bytes.cut?_eq_none_iff.1 hc))
  | some p =>
    obtain ⟨before, inner⟩ := p
    obtain ⟨e, hp⟩ := Bytes.cut?_eq_some_iff.1 hc
    rw [List.append_assoc] at e
    constructor
    · intro h
      refine .inr ⟨before, inner, e, hp, ?_⟩
      rw [← Bytes.cut?_eq_none_iff]
      simp only [scan, hc] at h
      split at h
      next => cases h
      next => exact Option.map_eq_none_iff.1 h
    · rintro (h | ⟨before', inner', e', hp', h⟩)
      · exact absurd ⟨before, inner, by rw [e, List.append_assoc]⟩ h
      · -- both texts before the opening braces are the one before the first
        have hc' : Bytes.cut? openMark src = some (before', inner') :=
          Bytes.cut?_eq_some_iff.2 ⟨by rw [e', List.append_assoc], hp'⟩
        rw [hc] at hc'
        cases hc'
        by_contra h1
        obtain ⟨t, ht⟩ := Option.ne_none_iff_exists'.1 h1
        obtain ⟨interior, dropped, e2, -⟩ := exists_interior_of_scan ht
        have hb : Bytes.cut? openMark src = some (t.before, _) :=
          Bytes.cut?_eq_some_iff.2 ⟨by rw [e2, List.append_assoc], (literal_before ht).passes _⟩
        rw [hc] at hb
        cases hb
        exact h ⟨interior, dropped ++ t.after, by simp⟩

/-! ## A scan after another -/

/-- Whatever follows the text before a tag, the next tag stands behind that text. -/
theorem prefix_before_of_scan {w s : Bytes} {t : Tag} (hw : Literal w)
    (h : scan (w ++ s) = some t) : w <+: t.before := by
  rw [scan_append hw] at h
  obtain ⟨u, -, rfl⟩ := Option.map_eq_some_iff.1 h
  exact List.prefix_append _ _

theorem prefix_before_of_mem_scanAll {w s : Bytes} (hw : Literal w) :
    ∀ t ∈ (scanAll (w ++ s)).1, w <+: t.before := by
  generalize hsrc : w ++ s = src
  fun_induction scanAll src generalizing s with
  | case1 src h => simp
  | case2 src t h tags rest h1 ih =>
    subst hsrc
    have h2 := prefix_before_of_scan hw h
    intro u hu
    rcases List.mem_cons.1 hu with rfl | hu
    · exact h2
    · obtain ⟨v, hv⟩ := h2
      have e : w ++ (v ++ t.after) = t.excise := by rw [excise, ← hv, List.append_assoc]
      rw [h1] at ih
      exact ih e u hu

/-- The tags of a text stand behind one another, each counted in what its forerunners left. -/
theorem pairwise_scanAll (src : Bytes) :
    (scanAll src).1.Pairwise fun t u => t.before <+: u.before := by
  fun_induction scanAll src with
  | case1 src h => exact List.Pairwise.nil
  | case2 src t h tags rest h1 ih =>
    rw [h1] at ih
    refine List.pairwise_cons.2 ⟨fun u hu => ?_, ih⟩
    have h2 : u ∈ (scanAll (t.before ++ t.after)).1 := by
      rw [show t.before ++ t.after = t.excise from rfl, h1]
      exact hu
    exact prefix_before_of_mem_scanAll (literal_before h) u h2

/-- A text has a tag unless it has no opening braces, or no closing braces behind the first ones. A
tag starts there, and the text before it is literal and stays in front when the tag is cut out, so
the positions of the tags that are cut out one by one never decrease. -/
theorem scan_exact (src : Bytes) :
    (scan src = none ↔
      ¬ openMark <:+: src ∨ ∃ before inner, src = before ++ (openMark ++ inner) ∧
        Bytes.Passes openMark before (openMark ++ inner) ∧ ¬ closeMark <:+: inner) ∧
    (∀ t, scan src = some t →
      (∃ text, Takes src t text) ∧
      (¬ openMark <:+: t.before ∧ t.before.getLast? ≠ some 0x7B) ∧
      t.excise = t.before ++ t.after ∧
      ∀ u, scan t.excise = some u → t.before <+: u.before) ∧
    (scanAll src).1.Pairwise fun t u => t.position ≤ u.position := by
  refine ⟨scan_eq_none_iff_first, fun t h => ?_, ?_⟩
  · have h1 := literal_before h
    exact ⟨exists_takes h, ⟨h1.no_open, h1.no_last⟩, rfl, fun u hu => prefix_before_of_scan h1 hu⟩
  · exact (pairwise_scanAll src).imp fun h => h.length_le

/-- A tag of three braces, a long comment around a tag, and braces that nothing closes. -/
theorem scan_exact_comment :
    let src := Utf8.ofString "a\x7d\x7d{{{b}}}c\x7b\x7b!-- {{d}} --\x7d\x7d\x7b\x7b"
    ∃ t u, scan src = some t ∧ scan t.excise = some u ∧ u.kind = .comment ∧
      (∃ text, Takes src t text) ∧ t.before <+: u.before ∧
      (scanAll src).1.Pairwise fun t u => t.position ≤ u.position := by
  intro src
  have h1 : scan src =
      some ⟨.expression, Utf8.ofString "a\x7d\x7d", [0x62],
        Utf8.ofString "c\x7b\x7b!-- {{d}} --\x7d\x7d\x7b\x7b", true⟩ := by decide +kernel
  have h2 : scan (Utf8.ofString "a\x7d\x7dc\x7b\x7b!-- {{d}} --\x7d\x7d\x7b\x7b") =
      some ⟨.comment, Utf8.ofString "a\x7d\x7dc", Utf8.ofString "!-- {{d}}",
        [0x7B, 0x7B], false⟩ := by decide +kernel
  obtain ⟨-, h3, h4⟩ := scan_exact src
  obtain ⟨h5, -, -, h6⟩ := h3 _ h1
  exact ⟨_, _, h1, h2, rfl, h5, h6 _ h2, h4⟩

end Tag

end ThemeTemplates
