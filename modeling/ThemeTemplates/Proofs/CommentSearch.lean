import ThemeTemplates.Proofs.Pieces

/-! # The search for long comments

The search goes through a text from one offset to the next. If the mark of a comment follows the
first opening braces, it goes on behind the end of that comment, and stops if there is none. Behind
other braces it goes on at once.

* `Tag.look src offset` is one turn of the search. `Search src offset spans` holds if the turns from
  an offset on come to an end and take the comments `spans`.
* `commentSpans_exact`: the search of every text ends. It takes comments only, the stretches that a
  scan would cut out, and each of them once; and it misses none, unless a third brace stands in front
  of the two.
-/

namespace ThemeTemplates.Tag

set_option autoImplicit false

/-! ## One turn -/

/-- What a turn comes to. -/
inductive Turn
  /-- No braces are left, or those of a comment that is never closed. -/
  | done
  /-- Braces that open no comment are passed over. -/
  | braces (next : Nat)
  | comment (span : Span)
  deriving DecidableEq

def look (src : Bytes) (offset : Nat) : Turn :=
  match Bytes.cut? openMark (src.drop offset) with
  | none => .done
  | some (before, inner) =>
    let start := offset + before.length
    if commentMark.isPrefixOf inner then
      match longComment? inner with
      | none => .done
      | some (body, _) =>
        .comment ⟨start, start + openMark.length + body.length + commentEnd.length⟩
    else .braces (start + openMark.length)

section
variable {src before inner : Bytes} {offset : Nat}

theorem exists_remark_of_longComment? {body after : Bytes}
    (h : longComment? inner = some (body, after)) :
    ∃ c, body = commentMark ++ c ∧ Remark c ∧ openMark ++ inner = remark c ++ after := by
  unfold longComment? at h
  split at h
  next hm =>
    obtain ⟨⟨c, r⟩, h1, h2⟩ := Option.map_eq_some_iff.1 h
    cases h2
    refine ⟨c, rfl, fun u hu hne h3 => ?_, ?_⟩
    · apply Bytes.passes_of_cut? h1 u hu hne
      rw [← List.append_assoc]
      exact h3.trans (List.prefix_append _ _)
    · rw [← Bytes.append_drop_of_isPrefixOf hm, Bytes.eq_of_cut? h1]
      simp [remark]
  next => cases h

theorem drop_add_length {a b : Bytes} (h : src.drop offset = a ++ b) :
    src.drop (offset + a.length) = b := by
  rw [← List.drop_drop, h, List.drop_left]

/-- What a turn does, by what it finds from the offset on. -/
theorem look_cases (src : Bytes) (offset : Nat) :
    (look src offset = .done ∧ ¬ openMark <:+: src.drop offset) ∨
    (∃ before inner, look src offset = .done ∧ Literal before ∧
      src.drop offset = before ++ (openMark ++ (commentMark ++ inner)) ∧ ¬ commentEnd <:+: inner) ∨
    (∃ before inner, look src offset = .braces (offset + before.length + openMark.length) ∧
      Literal before ∧ src.drop offset = before ++ (openMark ++ inner) ∧
      ¬ commentMark <+: inner) ∨
    ∃ before c after, look src offset =
        .comment ⟨offset + before.length, offset + before.length + (remark c).length⟩ ∧
      Literal before ∧ src.drop offset = before ++ (remark c ++ after) ∧ Remark c := by
  unfold look
  cases hc : Bytes.cut? openMark (src.drop offset) with
  | none => exact .inl ⟨rfl, Bytes.cut?_eq_none_iff.1 hc⟩
  | some p =>
    obtain ⟨before, inner⟩ := p
    have hb := literal_of_passes (Bytes.passes_of_cut? hc)
    have e := Bytes.eq_of_cut? hc
    rw [List.append_assoc] at e
    simp only
    split
    next hm =>
      have em := Bytes.append_drop_of_isPrefixOf hm
      cases hl : longComment? inner with
      | none =>
        refine .inr (.inl ⟨before, inner.drop commentMark.length, rfl, hb, ?_,
          not_commentEnd_of_longComment? hm hl⟩)
        rw [em, e]
      | some q =>
        obtain ⟨body, after⟩ := q
        obtain ⟨c, rfl, hr, e1⟩ := exists_remark_of_longComment? hl
        refine .inr (.inr (.inr ⟨before, c, after, ?_, hb, by rw [e, e1], hr⟩))
        simp only [remark, List.length_append, Turn.comment.injEq, Span.mk.injEq, true_and]
        omega
    next hm =>
      refine .inr (.inr (.inl ⟨before, inner, rfl, hb, e, ?_⟩))
      rwa [List.isPrefixOf_iff_prefix] at hm

end

/-! ## What a turn takes -/

/-- The stretch of a comment, and nothing else, is cut out by a scan from its start. -/
structure Cuts (src : Bytes) (r : Span) : Prop where
  nonempty : r.start < r.stop
  stop_le : r.stop ≤ src.length
  scan : ∃ t, scan (src.drop r.start) = some t ∧ t.kind = .comment ∧ t.before = [] ∧
    t.after = src.drop r.stop

section
variable {src : Bytes} {offset : Nat}

theorem le_of_look_braces {next : Nat} (h : look src offset = .braces next) : offset ≤ next := by
  rcases look_cases src offset with ⟨h1, -⟩ | ⟨_, _, h1, -⟩ | ⟨before, _, h1, -⟩ | ⟨_, _, _, h1, -⟩
  all_goals rw [h1] at h; cases h
  omega

theorem cuts_of_look_comment {r : Span} (h : look src offset = .comment r) :
    offset ≤ r.start ∧ Cuts src r := by
  rcases look_cases src offset with ⟨h1, -⟩ | ⟨_, _, h1, -⟩ | ⟨_, _, h1, -⟩ |
    ⟨before, c, after, h1, -, e, hr⟩
  all_goals rw [h1] at h; cases h
  have e1 : src.drop (offset + before.length) = remark c ++ after := drop_add_length e
  have e2 : src.drop (offset + before.length + (remark c).length) = after := drop_add_length e1
  have h2 : 0 < (remark c).length := by
    rw [remark_eq_braced, length_braced]
    omega
  have h3 := congrArg List.length e1
  rw [List.length_drop, List.length_append] at h3
  refine ⟨Nat.le_add_right _ _, ?_, ?_, ?_⟩
  · exact Nat.lt_add_of_pos_right h2
  · show offset + before.length + (remark c).length ≤ src.length
    omega
  · refine ⟨_, by rw [e1, Piece.scan_remark hr], rfl, rfl, ?_⟩
    exact e2.symm

/-! ## What a turn does not pass over -/

/-- Opening braces behind literal text are the first ones of a text, or stand behind these, if no
brace stands in front of them. -/
theorem braces_cases {before inner u x : Bytes} (hb : Literal before)
    (e : before ++ (openMark ++ inner) = u ++ (openMark ++ x)) (hu : u.getLast? ≠ some 0x7B) :
    (u = before ∧ x = inner) ∨ ∃ v, u = before ++ (openMark ++ v) ∧ inner = v ++ (openMark ++ x) := by
  rcases List.append_eq_append_iff.1 e with ⟨w, rfl, e1⟩ | ⟨w, rfl, e1⟩
  · match w with
    | [] => exact .inl ⟨List.append_nil before, (List.append_cancel_left e1).symm⟩
    | [b] =>
      obtain ⟨rfl, -⟩ := List.cons.inj e1
      exact absurd (by simp) hu
    | b :: b' :: v =>
      obtain ⟨rfl, e2⟩ := List.cons.inj e1
      obtain ⟨rfl, e3⟩ := List.cons.inj e2
      exact .inr ⟨v, rfl, e3⟩
  · by_cases hw : w = []
    · subst hw
      exact .inl ⟨(List.append_nil u).symm, List.append_cancel_left e1⟩
    · exact absurd ⟨x, e1⟩ (hb.passes (openMark ++ inner) w (List.suffix_append u w) hw)

/-- A turn in front of a comment takes it, or goes on in front of it, or takes another comment that
starts no later. -/
theorem look_reaches {p s : Bytes} (e : src = p ++ (openMark ++ (commentMark ++ s)))
    (hp : p.getLast? ≠ some 0x7B) (hs : commentEnd <:+: s) (ho : offset ≤ p.length) :
    (∃ next, look src offset = .braces next ∧ next ≤ p.length) ∨
      ∃ r, look src offset = .comment r ∧ r.start ≤ p.length := by
  have hd : src.drop offset = p.drop offset ++ (openMark ++ (commentMark ++ s)) := by
    rw [e, List.drop_append_of_le_length ho]
  have hl : (p.drop offset).length = p.length - offset := List.length_drop
  have hu : (p.drop offset).getLast? ≠ some 0x7B := by
    intro h
    obtain ⟨w, hw⟩ := List.getLast?_eq_some_iff.1 h
    apply hp
    rw [← List.take_append_drop offset p, hw, ← List.append_assoc, List.getLast?_concat]
  rcases look_cases src offset with ⟨-, h1⟩ | ⟨before, inner, -, hb, e1, h1⟩ |
    ⟨before, inner, h, hb, e1, h1⟩ | ⟨before, c, after, h, hb, e1, -⟩
  · exact absurd ⟨p.drop offset, commentMark ++ s, by rw [hd, List.append_assoc]⟩ h1
  · -- an end behind the comment would end the comment in front of it too
    exfalso
    apply h1
    rcases braces_cases hb (e1.symm.trans hd) hu with ⟨-, e2⟩ | ⟨v, -, e2⟩
    · rwa [← List.append_cancel_left e2]
    · have h2 : s <:+ commentMark ++ inner := ⟨v ++ (openMark ++ commentMark), by rw [e2]; simp⟩
      have h3 := congrArg List.length e2
      simp only [List.length_append] at h3
      exact hs.trans (List.suffix_of_suffix_length_le h2 (List.suffix_append _ _)
        (by omega)).isInfix
  · rcases braces_cases hb (e1.symm.trans hd) hu with ⟨-, rfl⟩ | ⟨v, e2, -⟩
    · exact absurd (List.prefix_append commentMark s) h1
    · rw [e2] at hl
      simp only [List.length_append] at hl
      exact .inl ⟨_, h, by omega⟩
  · right
    refine ⟨_, h, ?_⟩
    show offset + before.length ≤ p.length
    rw [remark, List.append_assoc] at e1
    rcases braces_cases hb (e1.symm.trans hd) hu with ⟨e2, -⟩ | ⟨v, e2, -⟩
    · rw [e2] at hl
      omega
    · rw [e2, List.length_append] at hl
      omega

end

/-! ## All turns -/

/-- The turns from `offset` on end, and take these comments. -/
inductive Search (src : Bytes) : Nat → List Span → Prop
  | done {offset : Nat} (h : look src offset = .done) : Search src offset []
  | braces {offset next : Nat} {spans : List Span} (h : look src offset = .braces next)
      (hs : Search src next spans) : Search src offset spans
  | comment {offset : Nat} {r : Span} {spans : List Span} (h : look src offset = .comment r)
      (hs : Search src r.stop spans) : Search src offset (r :: spans)

section
variable {src : Bytes} {offset : Nat} {spans : List Span}

theorem Search.unique {spans' : List Span} (h : Search src offset spans)
    (h' : Search src offset spans') : spans = spans' := by
  induction h generalizing spans' with
  | done h =>
    cases h' with
    | done => rfl
    | braces h1 | comment h1 => rw [h] at h1; cases h1
  | braces h _ ih =>
    cases h' with
    | braces h1 hs =>
      rw [h] at h1
      cases h1
      exact ih hs
    | done h1 | comment h1 => rw [h] at h1; cases h1
  | comment h _ ih =>
    cases h' with
    | comment h1 hs =>
      rw [h] at h1
      cases h1
      rw [ih hs]
    | done h1 | braces h1 => rw [h] at h1; cases h1

/-- The search of the rest of a text ends, since each turn leaves less of it. -/
theorem search_commentSpansFrom {rest : Bytes} (e : src.drop offset = rest) :
    Search src offset (commentSpansFrom offset rest) := by
  fun_induction commentSpansFrom offset rest with
  | case1 offset rest hc =>
    apply Search.done
    rw [look, e, hc]
  | case2 offset rest before inner hc hm hl =>
    apply Search.done
    rw [look, e, hc]
    simp only [hm, hl, if_true]
  | case3 offset rest before inner hc start hm body after hl stop ih =>
    have e1 := Bytes.eq_of_cut? hc
    rw [eq_of_longComment? hl, ← List.append_assoc, ← List.append_assoc] at e1
    have e2 := drop_add_length (e.trans e1)
    have h1 : look src offset = .comment ⟨start, stop⟩ := by
      rw [look, e, hc]
      simp only [hm, hl, if_true]
      rfl
    refine .comment h1 (ih ?_)
    rw [← e2]
    simp only [stop, start, List.length_append, Nat.add_assoc]
  | case4 offset rest before inner hc start hm ih =>
    have e2 := drop_add_length (e.trans (Bytes.eq_of_cut? hc))
    have h1 : look src offset = .braces (start + openMark.length) := by
      rw [look, e, hc]
      exact if_neg hm
    refine .braces h1 (ih ?_)
    rw [← e2]
    simp only [start, List.length_append, Nat.add_assoc]

theorem search_iff : Search src 0 spans ↔ spans = commentSpans src := by
  have h : Search src 0 (commentSpans src) := search_commentSpansFrom rfl
  refine ⟨fun h1 => h1.unique h, ?_⟩
  rintro rfl
  exact h

theorem Search.cuts (h : Search src offset spans) : ∀ r ∈ spans, offset ≤ r.start ∧ Cuts src r := by
  induction h with
  | done => simp
  | braces h _ ih =>
    have h1 := le_of_look_braces h
    exact fun r hr => ⟨h1.trans (ih r hr).1, (ih r hr).2⟩
  | comment h _ ih =>
    obtain ⟨h1, h2⟩ := cuts_of_look_comment h
    intro r hr
    rcases List.mem_cons.1 hr with rfl | hr
    · exact ⟨h1, h2⟩
    · exact ⟨(h1.trans h2.nonempty.le).trans (ih r hr).1, (ih r hr).2⟩

theorem Search.pairwise (h : Search src offset spans) :
    spans.Pairwise fun r s => r.stop ≤ s.start := by
  induction h with
  | done => exact List.Pairwise.nil
  | braces _ _ ih => exact ih
  | comment _ hs ih => exact List.pairwise_cons.2 ⟨fun r hr => (hs.cuts r hr).1, ih⟩

theorem Search.exists_contains {p s : Bytes} (h : Search src offset spans)
    (e : src = p ++ (openMark ++ (commentMark ++ s))) (hp : p.getLast? ≠ some 0x7B)
    (hs : commentEnd <:+: s) (ho : offset ≤ p.length) :
    ∃ r ∈ spans, r.contains p.length = true := by
  induction h with
  | done h =>
    rcases look_reaches e hp hs ho with ⟨next, h1, -⟩ | ⟨r, h1, -⟩
    all_goals rw [h] at h1; cases h1
  | braces h _ ih =>
    rcases look_reaches e hp hs ho with ⟨next, h1, h2⟩ | ⟨r, h1, -⟩
    all_goals rw [h] at h1; cases h1
    exact ih h2
  | @comment offset r spans h _ ih =>
    rcases look_reaches e hp hs ho with ⟨next, h1, -⟩ | ⟨r', h1, h2⟩
    all_goals rw [h] at h1; cases h1
    by_cases h3 : p.length < r.stop
    · exact ⟨r, List.mem_cons_self, by simp [Span.contains, h2, h3]⟩
    · obtain ⟨r', hr, h4⟩ := ih (Nat.le_of_not_lt h3)
      exact ⟨r', List.mem_cons_of_mem r hr, h4⟩

end

/-- The search of a text ends. It takes stretches in order and apart from each other, and a scan from
the start of one cuts out just that stretch, as a comment. A comment that is closed somewhere opens
in one of them, unless a third brace stands in front of its two. -/
theorem commentSpans_exact (src : Bytes) :
    (∀ spans, Search src 0 spans ↔ spans = commentSpans src) ∧
    (commentSpans src).Pairwise (fun r s => r.stop ≤ s.start) ∧
    (∀ r ∈ commentSpans src, r.start < r.stop ∧ r.stop ≤ src.length ∧
      ∃ t, scan (src.drop r.start) = some t ∧ t.kind = .comment ∧ t.before = [] ∧
        t.after = src.drop r.stop) ∧
    ∀ p s, src = p ++ (openMark ++ (commentMark ++ s)) → p.getLast? ≠ some 0x7B →
      commentEnd <:+: s → ∃ r ∈ commentSpans src, r.contains p.length = true := by
  have h : Search src 0 (commentSpans src) := search_iff.2 rfl
  refine ⟨fun spans => search_iff, h.pairwise, fun r hr => ?_, fun p s e hp hs => ?_⟩
  · obtain ⟨-, h1⟩ := h.cuts r hr
    exact ⟨h1.nonempty, h1.stop_le, h1.scan⟩
  · exact h.exists_contains e hp hs (Nat.zero_le _)

/-- Three braces and four of them, a comment around a tag, and one that is never closed. -/
theorem commentSpans_exact_braces :
    let p := Utf8.ofString "\x7b\x7b\x7b!-- x --\x7d\x7d"
    let s := Utf8.ofString " {{a}} --\x7d\x7d\x7b\x7b\x7b\x7b!-- y --\x7d\x7d\x7b\x7b!-- z"
    let src := p ++ (openMark ++ (commentMark ++ s))
    commentSpans src = [⟨13, 29⟩, ⟨31, 43⟩] ∧ p.length = 13 ∧
      (∃ r ∈ commentSpans src, r.contains p.length = true) ∧
      ∃ t, scan (src.drop 31) = some t ∧ t.kind = .comment ∧ t.before = [] ∧
        t.after = src.drop 43 := by
  intro p s src
  have h1 : commentSpans src = [⟨13, 29⟩, ⟨31, 43⟩] := by decide +kernel
  have hp : p.getLast? ≠ some 0x7B := by decide +kernel
  have hs : commentEnd <:+: s := by decide +kernel
  obtain ⟨-, -, h2, h3⟩ := commentSpans_exact src
  obtain ⟨-, -, h4⟩ := h2 ⟨31, 43⟩ (by rw [h1]; simp)
  exact ⟨h1, by decide +kernel, h3 p s rfl hp hs, h4⟩

end ThemeTemplates.Tag
