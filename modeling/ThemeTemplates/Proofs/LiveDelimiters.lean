import ThemeTemplates.Proofs.Delimiters
import ThemeTemplates.Proofs.Pairing

/-! # Delimiters outside long comments

`Block.live` lists the delimiters of a text that no long comment hides, positions counted from an
offset. It reads over the parts of a text one by one: literal text, a long comment and a tag that
is no delimiter of the name are passed over, and a tag that is one comes first in the list.
-/

namespace ThemeTemplates

set_option autoImplicit false

namespace Tag

/-! ## Comments of a text in parts -/

theorem commentSpansFrom_eq (offset : Nat) (src : Bytes) :
    commentSpansFrom offset src = match Bytes.cut? openMark src with
      | none => []
      | some (before, inner) =>
        if commentMark.isPrefixOf inner then
          match longComment? inner with
          | none => []
          | some (body, after) =>
            ⟨offset + before.length, offset + before.length + openMark.length + body.length +
              commentEnd.length⟩ :: commentSpansFrom (offset + before.length + openMark.length +
                body.length + commentEnd.length) after
        else commentSpansFrom (offset + before.length + openMark.length) inner := by
  rw [commentSpansFrom]
  split
  next h => simp only [h]
  next before inner h =>
    simp only [h]
    split
    next =>
      split
      next h1 => simp only [h1]
      next body after h1 => simp only [h1]
    next => rfl

theorem le_of_mem_commentSpansFrom {offset : Nat} {src : Bytes} :
    ∀ c ∈ commentSpansFrom offset src, offset ≤ c.start := by
  fun_induction commentSpansFrom offset src with
  | case1 => simp
  | case2 => simp
  | case3 offset src before inner h start hm body after h1 stop ih =>
    intro c hc
    rcases List.mem_cons.1 hc with rfl | hc
    · exact Nat.le_add_right _ _
    · have h2 := ih c hc
      omega
  | case4 offset src before inner h start hm ih =>
    intro c hc
    have h2 := ih c hc
    omega

/-- Without an end there is no long comment. -/
theorem commentSpansFrom_of_no_end {offset : Nat} {src : Bytes} (h : ¬ commentEnd <:+: src) :
    commentSpansFrom offset src = [] := by
  fun_induction commentSpansFrom offset src with
  | case1 => rfl
  | case2 => rfl
  | case3 offset src before inner h1 start hm body after h2 stop ih =>
    exfalso
    refine h ⟨before ++ openMark ++ body, after, ?_⟩
    rw [Bytes.eq_of_cut? h1, eq_of_longComment? h2]
    simp
  | case4 offset src before inner h1 start hm ih =>
    refine ih fun h2 => h (h2.trans ?_)
    rw [Bytes.eq_of_cut? h1]
    exact (List.suffix_append _ _).isInfix

theorem commentSpansFrom_literal {w : Bytes} (hw : Literal w) (s : Bytes) (offset : Nat) :
    commentSpansFrom offset (w ++ s) = commentSpansFrom (offset + w.length) s := by
  rw [commentSpansFrom_eq, commentSpansFrom_eq (offset + w.length) s, Bytes.cut?_append (hw.passes s)]
  cases Bytes.cut? openMark s with
  | none => rfl
  | some p =>
    have e : offset + (w ++ p.1).length = offset + w.length + p.1.length := by
      rw [List.length_append]
      omega
    simp only [Option.map_some, e]

/-- Text that a long comment may hold: it does not end the comment. -/
def Remark (body : Bytes) : Prop := Bytes.Passes commentEnd body commentEnd

theorem remark_of_not_infix {c : Bytes} (h : ¬ commentEnd <:+: c) : Remark c := by
  rintro u ⟨x, rfl⟩ hne h1
  match u with
  | [] => exact hne rfl
  | [a] => simp [commentEnd] at h1
  | [a, b] => simp [commentEnd] at h1
  | [a, b, c] => simp [commentEnd] at h1
  | a :: b :: c :: d :: v =>
    obtain ⟨h2, h3, h4, h5⟩ : 0x2D = a ∧ 0x2D = b ∧ 0x7D = c ∧ 0x7D = d := by
      simpa [commentEnd] using h1
    subst h2 h3 h4 h5
    exact h ⟨x, v, by simp [commentEnd]⟩

theorem longComment?_remark {body : Bytes} (h : Remark body) (s : Bytes) :
    longComment? (commentMark ++ body ++ commentEnd ++ s) = some (commentMark ++ body, s) := by
  have h1 : Bytes.Passes commentEnd body (commentEnd ++ s) := by
    intro u hu hne h2
    refine h u hu hne (List.prefix_of_prefix_length_le h2 ?_ (by simp))
    rw [← List.append_assoc]
    exact List.prefix_append _ _
  have h2 : commentMark.isPrefixOf (commentMark ++ body ++ commentEnd ++ s) = true := by
    rw [List.isPrefixOf_iff_prefix, List.append_assoc, List.append_assoc]
    exact List.prefix_append _ _
  rw [longComment?, if_pos h2, List.append_assoc, List.append_assoc, List.drop_left,
    Bytes.cut?_append h1, Bytes.cut?_mark]
  simp

theorem commentSpansFrom_remark {body : Bytes} (h : Remark body) (s : Bytes) (offset : Nat) :
    commentSpansFrom offset (remark body ++ s) =
      ⟨offset, offset + (remark body).length⟩ ::
        commentSpansFrom (offset + (remark body).length) s := by
  have h1 : commentMark.isPrefixOf (commentMark ++ body ++ commentEnd ++ s) = true := by
    rw [List.isPrefixOf_iff_prefix, List.append_assoc, List.append_assoc]
    exact List.prefix_append _ _
  have e : offset + ([] : Bytes).length + openMark.length + (commentMark ++ body).length +
      commentEnd.length = offset + (remark body).length := by
    simp only [remark, List.length_append, List.length_nil]
    omega
  rw [commentSpansFrom_eq, remark, List.append_assoc, Bytes.cut?_mark]
  simp only [h1, longComment?_remark h, if_true, e]
  rfl

/-! ## Comments and the interior of a tag -/

theorem passes_openMark_brace {i : Bytes} (h : Bytes.cut? openMark i = none) (s : Bytes) :
    Bytes.Passes openMark i (0x7D :: s) := by
  rw [Bytes.cut?_eq_none_iff] at h
  intro u hu hne h1
  match u with
  | [] => exact hne rfl
  | [x] =>
    obtain ⟨t, h2⟩ := h1
    simp [openMark] at h2
  | x :: y :: u =>
    obtain ⟨t, h2⟩ := h1
    simp only [openMark, List.cons_append, List.nil_append, List.cons.injEq] at h2
    obtain ⟨rfl, rfl, -⟩ := h2
    exact h ((List.prefix_append openMark u).isInfix.trans hu.isInfix)

theorem not_commentMark_prefix {i : Bytes} (h : ¬ commentMark <+: i) (s : Bytes) :
    commentMark.isPrefixOf (i ++ 0x7D :: s) = false := by
  rw [← Bool.not_eq_true, List.isPrefixOf_iff_prefix]
  rintro ⟨t, h1⟩
  match i with
  | [] => simp [commentMark] at h1
  | [x] => simp [commentMark] at h1
  | [x, y] => simp [commentMark] at h1
  | x :: y :: z :: i =>
    simp only [commentMark, List.cons_append, List.nil_append, List.cons.injEq] at h1
    obtain ⟨rfl, rfl, rfl, -⟩ := h1
    exact h ⟨i, rfl⟩

theorem commentSpansFrom_interior (n : Nat) : ∀ {i : Bytes} (_ : i.length ≤ n)
    (_ : ¬ openMark ++ commentMark <:+: i) (s : Bytes) (offset : Nat),
    commentSpansFrom offset (i ++ closeMark ++ s) =
      commentSpansFrom (offset + (i ++ closeMark).length) s := by
  induction n with
  | zero =>
    intro i hn _ s offset
    obtain rfl : i = [] := List.length_eq_zero_iff.1 (by omega)
    exact commentSpansFrom_literal ⟨by decide, by decide⟩ s offset
  | succ n ih =>
    intro i hn h s offset
    cases hc : Bytes.cut? openMark i with
    | none =>
      have h1 : Bytes.Passes openMark (i ++ closeMark) (openMark ++ []) :=
        Bytes.nowhere_append.2 ⟨passes_openMark_brace hc _,
          Literal.passes ⟨by decide, by decide⟩ _⟩
      exact commentSpansFrom_literal (literal_of_passes h1) s offset
    | some p =>
      obtain ⟨before, i'⟩ := p
      have e := Bytes.eq_of_cut? hc
      have h1 := literal_of_passes (Bytes.passes_of_cut? hc)
      have h2 : ¬ commentMark <+: i' := by
        rintro ⟨t, rfl⟩
        exact h ⟨before, t, by rw [e]; simp⟩
      have h3 : ¬ openMark ++ commentMark <:+: i' := fun h4 => h (h4.trans (by
        rw [e]
        exact (List.suffix_append _ _).isInfix))
      have e1 : i ++ closeMark ++ s = before ++ (openMark ++ (i' ++ closeMark ++ s)) := by
        rw [e]
        simp
      have h4 : commentMark.isPrefixOf (i' ++ closeMark ++ s) = false := by
        have h5 := not_commentMark_prefix h2 ([0x7D] ++ s)
        rwa [show i' ++ closeMark ++ s = i' ++ 0x7D :: ([0x7D] ++ s) by simp [closeMark]]
      have h6 : i.length = before.length + openMark.length + i'.length := Bytes.length_of_cut? hc
      have h7 : openMark.length = 2 := rfl
      rw [e1, commentSpansFrom_eq, Bytes.cut?_append (h1.passes _), Bytes.cut?_mark]
      simp only [Option.map_some, List.append_nil, h4, Bool.false_eq_true, if_false]
      rw [ih (by omega) h3]
      congr 1
      simp only [List.length_append]
      omega

theorem not_commentEnd_of_longComment? {inner : Bytes} (hm : commentMark.isPrefixOf inner = true)
    (h : longComment? inner = none) : ¬ commentEnd <:+: inner.drop commentMark.length := by
  rw [longComment?, if_pos hm, Option.map_eq_none_iff] at h
  exact Bytes.cut?_eq_none_iff.1 h

/-- A tag that is no long comment and holds no start of one. -/
theorem commentSpansFrom_tag {i s : Bytes} (h : longComment? (i ++ closeMark ++ s) = none)
    (hi : ¬ openMark ++ commentMark <:+: i) (offset : Nat) :
    commentSpansFrom offset (braced i ++ s) =
      commentSpansFrom (offset + (braced i).length) s := by
  rw [braced_append, commentSpansFrom_eq, Bytes.cut?_mark]
  cases hm : commentMark.isPrefixOf (i ++ closeMark ++ s) with
  | false =>
    simp only [hm, Bool.false_eq_true, if_false]
    rw [commentSpansFrom_interior i.length (Nat.le_refl _) hi]
    congr 1
    simp only [braced, List.length_append, List.length_nil]
    omega
  | true =>
    simp only [hm, h, if_true]
    refine (commentSpansFrom_of_no_end fun h1 => not_commentEnd_of_longComment? hm h ?_).symm
    cases i with
    | nil => simp [commentMark, closeMark] at hm
    | cons b i =>
      refine h1.trans ?_
      rw [List.drop_append_of_le_length (by simp [commentMark, closeMark])]
      exact (List.suffix_append _ _).isInfix

end Tag

namespace Block

open Delimiter

/-! ## Delimiters of a text in parts -/

/-- The delimiters of one sort that no long comment hides. -/
def live (side : Side) (name : Bytes) (offset : Nat) (s : Bytes) : List Span :=
  outside (Tag.commentSpansFrom offset s) (spansFrom (length? side name) offset 0 s)

theorem delimiters_of_word {name : Bytes} (h : Word name) (side : Side) (s : Bytes) :
    delimiters side name s = live side name 0 s := by
  obtain ⟨cs, rfl, -⟩ := h
  rw [delimiters, Utf8.decode_encode]
  rfl

theorem openMark_prefix_of_length? {side : Side} {name s : Bytes}
    (h : (length? side name s).isSome) : Tag.openMark <+: s := by
  obtain ⟨k, hk⟩ := Option.isSome_iff_exists.1 h
  cases ho : openingLength? s with
  | none =>
    rw [length?, ho] at hk
    cases hk
  | some i =>
    obtain ⟨o, r, rfl, -, rfl | rfl⟩ := exists_of_openingLength? ho
    · exact ⟨r, rfl⟩
    · exact ⟨0x7B :: r, rfl⟩

theorem nowhere_of_literal {w : Bytes} (hw : Tag.Literal w) (side : Side) (name s : Bytes) :
    Bytes.Nowhere (fun t => (length? side name t).isSome) w s :=
  fun u hu hne h => hw.passes s u hu hne (openMark_prefix_of_length? h)

theorem live_literal {w : Bytes} (hw : Tag.Literal w) (side : Side) (name s : Bytes)
    (offset : Nat) : live side name offset (w ++ s) = live side name (offset + w.length) s := by
  rw [live, Tag.commentSpansFrom_literal hw, spansFrom_append (nowhere_of_literal hw side name s)]
  rfl

section
variable {interior z : Bytes} {side : Side} {name : Bytes}

theorem live_tag (hl : Tag.longComment? (interior ++ Tag.closeMark ++ z) = none)
    (hi : ¬ Tag.openMark ++ Tag.commentMark <:+: interior) (h : Headless interior)
    (h0 : length? side name (Tag.braced interior ++ z) = none)
    (offset : Nat) :
    live side name offset (Tag.braced interior ++ z) =
      live side name (offset + (Tag.braced interior).length) z := by
  rw [live, Tag.commentSpansFrom_tag hl hi, spansFrom_tag h h0]
  rfl

theorem live_delimiter (hl : Tag.longComment? (interior ++ Tag.closeMark ++ z) = none)
    (hi : ¬ Tag.openMark ++ Tag.commentMark <:+: interior) (h : Spells side name interior)
    (offset : Nat) :
    live side name offset (Tag.braced interior ++ z) =
      ⟨offset, offset + ((Tag.braced interior).length + spill z)⟩ ::
        live side name (offset + (Tag.braced interior).length) z := by
  rw [live, Tag.commentSpansFrom_tag hl hi, spansFrom_delimiter h, outside, List.filter_cons_of_pos]
  · rfl
  · -- every comment starts behind the delimiter
    rw [Bool.not_eq_true', List.any_eq_false]
    intro c hc h1
    have h2 := Tag.le_of_mem_commentSpansFrom c hc
    simp only [Span.contains, Bool.and_eq_true, decide_eq_true_eq] at h1
    rw [Tag.length_braced] at h2
    omega

theorem outside_append {c : Span} {cs own ds : List Span} (h1 : ∀ d ∈ own, c.contains d.start = true)
    (h2 : ∀ d ∈ ds, c.contains d.start = false) : outside (c :: cs) (own ++ ds) = outside cs ds := by
  rw [outside, List.filter_append]
  have h3 : own.filter (fun d => !(c :: cs).any fun c => c.contains d.start) = [] := by
    rw [List.filter_eq_nil_iff]
    intro d hd
    simp [h1 d hd]
  rw [h3, List.nil_append]
  refine List.filter_congr fun d hd => ?_
  rw [List.any_cons, h2 d hd, Bool.false_or]

/-- A match in the interior of a tag ends with the tag, but for one brace more. -/
theorem length?_le_braced (hn : 0x7D ∉ name) {u : Bytes} (hu : u <:+ Tag.braced interior)
    (hne : u ≠ []) {k : Nat} (h : length? side name (u ++ z) = some k) :
    k ≤ u.length ∨ k = u.length + 1 ∧ z.head? = some 0x7D := by
  obtain ⟨t, e⟩ := hu
  rw [Tag.braced] at e
  rcases List.append_eq_append_iff.1 e with ⟨v, e1, rfl⟩ | ⟨v, rfl, e1⟩
  · exact length?_le hn h
  · -- the match would start at a closing brace
    exfalso
    cases v with
    | nil =>
      obtain rfl : u = Tag.closeMark := by simpa using e1.symm
      rw [show Tag.closeMark ++ z = 0x7D :: ([0x7D] ++ z) from rfl, length?_of_brace] at h
      cases h
    | cons b v =>
      cases v with
      | nil =>
        obtain ⟨rfl, rfl⟩ : b = 0x7D ∧ u = [0x7D] := by simpa [Tag.closeMark, eq_comm] using e1
        rw [List.singleton_append, length?_of_brace] at h
        cases h
      | cons c v =>
        have h1 : [0x7D, 0x7D] = b :: c :: (v ++ u) := e1
        simp only [List.cons.injEq, List.nil_eq, List.append_eq_nil_iff] at h1
        exact hne h1.2.2.2

/-- A long comment hides the matches that start in it, if none of them takes more of the text behind
it than a closing brace. -/
theorem live_remark_of_le {body s : Bytes} (h : Tag.Remark body)
    (hle : ∀ u, u <:+ Tag.remark body → u ≠ [] → ∀ k, length? side name (u ++ s) = some k →
      k ≤ u.length ∨ k = u.length + 1 ∧ s.head? = some 0x7D) (offset : Nat) :
    live side name offset (Tag.remark body ++ s) =
      live side name (offset + (Tag.remark body).length) s := by
  obtain ⟨own, h1, h2⟩ := exists_spansFrom_append (f := length? side name) (s := s)
    (length?_of_brace side name) _ offset (Nat.le_refl (Tag.remark body).length) hle
  rw [live, Tag.commentSpansFrom_remark h, h1]
  refine outside_append (fun d hd => ?_) fun d hd => ?_
  · have h3 := h2 d hd
    simp [Span.contains, h3]
  · have h3 := mem_spansFrom hd
    have h4 : ¬ d.start < offset + (Tag.remark body).length := by omega
    simp [Span.contains, h4]

theorem live_remark {body : Bytes} (h : Tag.Remark body) (hn : 0x7D ∉ name) (s : Bytes)
    (offset : Nat) :
    live side name offset (Tag.remark body ++ s) =
      live side name (offset + (Tag.remark body).length) s := by
  apply live_remark_of_le h
  intro u hu hne k hk
  exact length?_le_braced hn (Tag.remark_eq_braced body ▸ hu) hne hk

end

end Block

end ThemeTemplates
