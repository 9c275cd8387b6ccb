import ThemeTemplates.Proofs.LiveDelimiters

/-! # Text whose tags are closed

What stands behind a text may change how its end is read: two opening braces at the end wait for
their closing ones, and three closing braces count where two would. In a text that closes all the
tags it opens nothing is left open for what follows, unless that starts with a closing brace.

* `Tag.Closed a`: closing braces follow all opening braces of `a`. The delimiter patterns match in
  `a ++ z` what they match in `a`, and then what they match in `z` (`spansFrom_append_closed`).
* `Tag.Settled a`: besides, the long comments that start in `a` end in it, and no tag has a third
  opening brace. The scanner reads such a text off before it comes to what follows
  (`Settled.scan_append`).
-/

namespace ThemeTemplates

set_option autoImplicit false

namespace Tag

structure Closed (a : Bytes) : Prop where
  no_last : a.getLast? ≠ some 0x7B
  closed : ∀ v, openMark ++ v <:+ a → closeMark <:+: v

structure Settled (a : Bytes) : Prop extends Closed a where
  no_third : ¬ [0x7B, 0x7B, 0x7B] <:+: a
  ended : ∀ v, openMark ++ commentMark ++ v <:+ a → commentEnd <:+: v

/-- What follows every occurrence of a mark, by the ends of the text. -/
theorem forall_behind_iff {mark a : Bytes} {p : Bytes → Prop} :
    (∀ v, mark ++ v <:+ a → p v) ↔ ∀ u ∈ a.tails, mark <+: u → p (u.drop mark.length) := by
  constructor
  · rintro h u hu ⟨v, rfl⟩
    rw [List.drop_left]
    exact h v ((List.mem_tails _ _).1 hu)
  · intro h v hv
    have h1 := h (mark ++ v) ((List.mem_tails _ _).2 hv) (List.prefix_append mark v)
    rwa [List.drop_left] at h1

theorem getLast?_ne_of_suffix {a b : Bytes} (h : a.getLast? ≠ some 0x7B) (hb : b <:+ a) :
    b.getLast? ≠ some 0x7B := by
  intro h1
  obtain ⟨v, rfl⟩ := List.getLast?_eq_some_iff.1 h1
  obtain ⟨u, rfl⟩ := hb
  exact h (by simp)

theorem Closed.suffix {a b : Bytes} (h : Closed a) (hb : b <:+ a) : Closed b :=
  ⟨getLast?_ne_of_suffix h.no_last hb, fun v hv => h.closed v (hv.trans hb)⟩

theorem Settled.suffix {a b : Bytes} (h : Settled a) (hb : b <:+ a) : Settled b :=
  ⟨h.toClosed.suffix hb, fun h1 => h.no_third (h1.trans hb.isInfix),
    fun v hv => h.ended v (hv.trans hb)⟩

/-- The braces at the end of a long comment close whatever it opens. -/
theorem closed_remark (body : Bytes) : Closed (remark body) := by
  obtain ⟨x, hx⟩ : ∃ x, remark body = x ++ commentEnd :=
    ⟨openMark ++ (commentMark ++ body), by simp [remark]⟩
  have h1 : commentEnd <:+ remark body := ⟨x, hx.symm⟩
  have h2 : closeMark <:+ remark body := List.IsSuffix.trans ⟨[0x2D, 0x2D], rfl⟩ h1
  refine ⟨by rw [hx]; simp [commentEnd], fun v hv => ?_⟩
  have h3 : v <:+ remark body := (List.suffix_append openMark v).trans hv
  by_cases hl : 2 ≤ v.length
  · exact (List.suffix_of_suffix_length_le h2 h3 hl).isInfix
  · -- the opening braces would stand among the last three bytes
    exfalso
    have h4 : (openMark ++ v).length ≤ commentEnd.length := by
      rw [List.length_append]
      simp only [openMark, commentEnd, List.length_cons, List.length_nil]
      omega
    have h5 := List.suffix_of_suffix_length_le hv h1 h4
    obtain ⟨y, hy⟩ := h5
    have h6 : (0x7B : UInt8) ∈ commentEnd := by rw [← hy]; simp [openMark]
    exact absurd h6 (by decide)

end Tag

/-! ## What the patterns match -/

namespace Delimiter

theorem interiorLength_brace (z : Bytes) : interiorLength (0x7D :: z) = 0 :=
  @interiorLength_encode_append [] (by simp) z

theorem interiorLength_append_brace (v z : Bytes) :
    interiorLength (v ++ 0x7D :: z) = interiorLength v := by
  fun_induction interiorLength v with
  | case1 v h =>
    by_cases hv : v = []
    · subst hv
      exact interiorLength_brace z
    · have h1 := Utf8.char?_append_ascii (b := 0x7D) (by decide) hv z
      rw [h] at h1
      rw [interiorLength]
      split
      next => rfl
      next h2 => rw [h1] at h2; cases h2
  | case2 v c r h hc =>
    have h1 := Utf8.char?_encodeChar_append c (r ++ 0x7D :: z)
    rw [← List.append_assoc, ← Utf8.eq_of_char? h] at h1
    rw [interiorLength]
    split
    next => rfl
    next h2 =>
      rw [h1] at h2
      cases h2
      rw [if_pos hc]
  | case3 v c r h hc ih =>
    have h1 := Utf8.char?_encodeChar_append c (r ++ 0x7D :: z)
    rw [← List.append_assoc, ← Utf8.eq_of_char? h] at h1
    rw [interiorLength]
    split
    next h2 => rw [h1] at h2; cases h2
    next h2 =>
      rw [h1] at h2
      cases h2
      rw [if_neg hc, ih]

theorem tailLength_append_brace (side : Side) (v z : Bytes) :
    tailLength side (v ++ 0x7D :: z) = tailLength side v := by
  cases side with
  | closer => exact blankLength_append_brace v z
  | opener =>
    by_cases hv : v = []
    · subst hv
      simp only [tailLength, List.nil_append, Utf8.char?_cons (b := 0x7D) (by decide),
        Utf8.char?_nil]
      rfl
    · simp only [tailLength, Utf8.char?_append_ascii (b := 0x7D) (by decide) hv,
        interiorLength_append_brace]
      cases Utf8.char? v with
      | none => rfl
      | some p => rfl

theorem tailLength_le (side : Side) (s : Bytes) : tailLength side s ≤ s.length := by
  obtain ⟨tail, r, rfl, -, h⟩ := exists_tail side s
  rw [h, List.length_append]
  exact Nat.le_add_right _ _

theorem closingLength?_cons_cons (a b : UInt8) (r : Bytes) :
    closingLength? (a :: b :: r) =
      if a = 0x7D ∧ b = 0x7D then some (if r.head? = some 0x7D then 3 else 2) else none := by
  by_cases h : a = 0x7D ∧ b = 0x7D
  · obtain ⟨rfl, rfl⟩ := h
    exact (closingLength?_closeMark r).trans (by unfold spill; split <;> rfl)
  · rw [if_neg h]
    unfold closingLength?
    split
    next h1 => cases h1; exact absurd ⟨rfl, rfl⟩ h
    next h1 => cases h1; exact absurd ⟨rfl, rfl⟩ h
    next => rfl

theorem closingLength?_append {x z : Bytes} (hx : x ≠ []) (hz : z.head? ≠ some 0x7D) :
    closingLength? (x ++ z) = closingLength? x := by
  match x, z with
  | [], _ => exact absurd rfl hx
  | x, [] => rw [List.append_nil]
  | [b], d :: z =>
    have hd : d ≠ 0x7D := by simpa using hz
    rw [List.singleton_append, closingLength?_cons_cons, if_neg fun h => hd h.2]
    simp [closingLength?]
  | [b, c], d :: z =>
    rw [List.cons_append, List.cons_append, closingLength?_cons_cons, closingLength?_cons_cons,
      List.nil_append, if_neg hz]
    rfl
  | b :: c :: e :: x, d :: z =>
    rw [List.cons_append, List.cons_append, closingLength?_cons_cons, closingLength?_cons_cons]
    rfl

/-- What follows the name of a delimiter, if a closing brace is there, does not depend on what comes
behind it. -/
theorem closing_append (side : Side) {r z : Bytes} (hr : 0x7D ∈ r) (hz : z.head? ≠ some 0x7D) :
    tailLength side (r ++ z) = tailLength side r ∧
      closingLength? ((r ++ z).drop (tailLength side r)) =
        closingLength? (r.drop (tailLength side r)) := by
  obtain ⟨v, w, rfl⟩ := List.append_of_mem hr
  have h1 := tailLength_append_brace side v w
  have h2 := tailLength_append_brace side v (w ++ z)
  have hle := tailLength_le side v
  rw [h1, List.append_assoc, List.cons_append, h2]
  refine ⟨rfl, ?_⟩
  rw [List.drop_append_of_le_length hle, List.drop_append_of_le_length hle, ← List.cons_append,
    ← List.append_assoc]
  exact closingLength?_append (by simp) hz

/-- The name of a delimiter ends before the closing braces, the first of which it may hold. -/
theorem exists_behind_name {name t z : Bytes} (hn : ¬ Tag.closeMark <:+: name)
    (ht : Tag.closeMark <:+: t) (h : name <+: t ++ z) : ∃ r, t = name ++ r ∧ 0x7D ∈ r := by
  rcases List.prefix_or_prefix_of_prefix h (List.prefix_append t z) with h1 | h1
  · obtain ⟨r, rfl⟩ := h1
    refine ⟨r, rfl, ?_⟩
    by_contra h2
    obtain ⟨x, y, e⟩ := ht
    -- the closing braces would stand in the name
    have h3 : name ++ r = (x ++ [0x7D]) ++ 0x7D :: y := by rw [← e]; simp [Tag.closeMark]
    rcases List.append_eq_append_iff.1 h3 with ⟨w, -, h4⟩ | ⟨w, h4, h5⟩
    · exact h2 (by rw [h4]; simp)
    · cases w with
      | nil => exact h2 (by rw [← (List.nil_append r), ← h5]; simp)
      | cons c w =>
        obtain ⟨rfl, -⟩ := List.cons.inj h5
        exact hn ⟨x, w, by rw [h4]; simp [Tag.closeMark]⟩
  · exact absurd (ht.trans h1.isInfix) hn

theorem opening_append {a : Bytes} (ha : Tag.Closed a) (hne : a ≠ []) (z : Bytes) :
    openingLength? (a ++ z) = openingLength? a ∧
      ∀ k, openingLength? a = some k → k ≤ a.length ∧ Tag.closeMark <:+: a.drop k := by
  match a with
  | [] => exact absurd rfl hne
  | [b] =>
    have hb : b ≠ 0x7B := by simpa using ha.no_last
    have h1 : ∀ s, openingLength? (b :: s) = none := by
      intro s
      cases s with
      | nil => simp [openingLength?]
      | cons c s => rw [openingLength?_cons_cons, if_neg fun h => hb h.1]
    refine ⟨by rw [List.singleton_append, h1, h1], fun k hk => ?_⟩
    rw [h1] at hk
    cases hk
  | b :: c :: r =>
    rw [List.cons_append, List.cons_append, openingLength?_cons_cons, openingLength?_cons_cons]
    by_cases h : b = 0x7B ∧ c = 0x7B
    · obtain ⟨rfl, rfl⟩ := h
      have h1 : Tag.closeMark <:+: r := ha.closed r (List.suffix_refl _)
      cases r with
      | nil => exact absurd h1 (by decide)
      | cons d r =>
        refine ⟨rfl, fun k hk => ?_⟩
        rw [if_pos ⟨rfl, rfl⟩, Option.some.injEq] at hk
        by_cases hd : d = 0x7B
        · subst hd
          rw [List.head?_cons, if_pos rfl] at hk
          subst hk
          refine ⟨by simp, ?_⟩
          rcases List.infix_cons_iff.1 h1 with h2 | h2
          · exact absurd (List.cons_prefix_cons.1 h2).1 (by decide)
          · exact h2
        · rw [if_neg (by simpa using hd)] at hk
          subst hk
          exact ⟨by simp, h1⟩
    · rw [if_neg h, if_neg h]
      exact ⟨rfl, by simp⟩

/-- A delimiter that starts in closed text is read off that text. -/
theorem length?_append {side : Side} {name a z : Bytes} (hn : ¬ Tag.closeMark <:+: name)
    (ha : Tag.Closed a) (hne : a ≠ []) (hz : z.head? ≠ some 0x7D) :
    length? side name (a ++ z) = length? side name a := by
  obtain ⟨h0, h1⟩ := opening_append ha hne z
  cases ho : openingLength? a with
  | none => rw [length?, h0, ho, length?, ho]
  | some k =>
    obtain ⟨h2, x, y, h3⟩ := h1 k ho
    have e : ∀ w, x ++ Tag.closeMark ++ y ++ w = x ++ 0x7D :: (0x7D :: (y ++ w)) := by
      intro w
      simp [Tag.closeMark]
    have e1 : (a ++ z).drop k = x ++ 0x7D :: (0x7D :: (y ++ z)) := by
      rw [List.drop_append_of_le_length h2, ← h3, e]
    have e2 : a.drop k = x ++ 0x7D :: (0x7D :: y) := by
      rw [← h3]
      simpa using e []
    rw [length?_of_opening (h0.trans ho), length?_of_opening ho, e1, e2, dropBlanks_append_brace,
      dropBlanks_append_brace, blankLength_append_brace, blankLength_append_brace]
    cases Text.dropBlanks x with
    | nil =>
      have h4 : ((0x7D : UInt8) == side.sign) = false := by cases side <;> rfl
      simp only [List.nil_append, h4, Bool.false_and, Bool.false_eq_true, if_false]
    | cons sign t =>
      have h4 : Tag.closeMark <:+: t ++ 0x7D :: (0x7D :: y) := ⟨t, y, by simp [Tag.closeMark]⟩
      have e3 : t ++ 0x7D :: (0x7D :: (y ++ z)) = t ++ 0x7D :: (0x7D :: y) ++ z := by simp
      simp only [List.cons_append, e3]
      by_cases h5 : name <+: t ++ 0x7D :: (0x7D :: y) ++ z
      · obtain ⟨r, e4, hr⟩ := exists_behind_name hn h4 h5
        obtain ⟨h6, h7⟩ := closing_append side hr hz
        have h8 : name.isPrefixOf (name ++ r ++ z) = name.isPrefixOf (name ++ r) := by
          rw [Bool.eq_iff_iff, List.isPrefixOf_iff_prefix, List.isPrefixOf_iff_prefix,
            List.append_assoc]
          simp
        rw [e4, h8, List.append_assoc, List.drop_left, List.drop_left, h6, h7]
      · have h6 : ¬ name <+: t ++ 0x7D :: (0x7D :: y) := fun h => h5 (h.trans (List.prefix_append _ _))
        rw [← List.isPrefixOf_iff_prefix, Bool.not_eq_true] at h5 h6
        rw [h5, h6, Bool.and_false]
        rfl

/-! ## Matches of closed text and what follows it -/

section
variable {f : Bytes → Option Nat}

theorem spansFrom_append_of_eq {a z : Bytes} : ∀ {offset skip : Nat}, skip ≤ a.length →
    (∀ u, u <:+ a → u ≠ [] → f (u ++ z) = f u) →
    (∀ u, u <:+ a → ∀ k, f u = some k → k ≤ u.length) →
    spansFrom f offset skip (a ++ z) =
      spansFrom f offset skip a ++ spansFrom f (offset + a.length) 0 z := by
  induction a with
  | nil =>
    intro offset skip hs _ _
    obtain rfl : skip = 0 := by simpa using hs
    rfl
  | cons b a ih =>
    intro offset skip hs h hle
    have h1 : ∀ u, u <:+ a → u ≠ [] → f (u ++ z) = f u := fun u hu =>
      h u (hu.trans (List.suffix_cons b a))
    have h2 : ∀ u, u <:+ a → ∀ k, f u = some k → k ≤ u.length := fun u hu =>
      hle u (hu.trans (List.suffix_cons b a))
    have e : offset + (b :: a).length = offset + 1 + a.length := by
      rw [List.length_cons]
      omega
    rw [List.length_cons] at hs
    cases skip with
    | succ skip =>
      rw [List.cons_append, spansFrom, spansFrom, ih (by omega) h1 h2, e]
    | zero =>
      have h3 : f (b :: (a ++ z)) = f (b :: a) := h (b :: a) (List.suffix_refl _) (by simp)
      rw [List.cons_append, spansFrom, spansFrom, h3, e]
      cases hk : f (b :: a) with
      | none => simp only [ih (Nat.zero_le _) h1 h2]
      | some k =>
        have h4 := hle (b :: a) (List.suffix_refl _) k hk
        rw [List.length_cons] at h4
        simp only [ih (by omega : k - 1 ≤ a.length) h1 h2, List.cons_append]

end

theorem spansFrom_append_closed {side : Side} {name a z : Bytes} (hn : ¬ Tag.closeMark <:+: name)
    (ha : Tag.Closed a) (hz : z.head? ≠ some 0x7D) (offset : Nat) :
    spansFrom (length? side name) offset 0 (a ++ z) =
      spansFrom (length? side name) offset 0 a ++
        spansFrom (length? side name) (offset + a.length) 0 z := by
  apply spansFrom_append_of_eq (Nat.zero_le _)
  · intro u hu hne
    exact length?_append hn (ha.suffix hu) hne hz
  · intro u _ k
    exact length?_le_length

end Delimiter

/-! ## Comments of settled text and what follows it -/

namespace Bytes

/-- More text behind a mark stays behind it. -/
theorem cut?_append_right {mark s a r : Bytes} (h : cut? mark s = some (a, r)) (z : Bytes) :
    cut? mark (s ++ z) = some (a, r ++ z) := by
  rw [cut?_eq_some_iff] at h ⊢
  obtain ⟨rfl, h1⟩ := h
  refine ⟨by simp, fun u hu hne h2 => h1 u hu hne ?_⟩
  have e : u ++ (mark ++ (r ++ z)) = u ++ (mark ++ r) ++ z := by simp
  rw [e] at h2
  refine List.prefix_of_prefix_length_le h2 (List.prefix_append _ z) ?_
  simp only [List.length_append]
  omega

end Bytes

namespace Tag

theorem commentMark_isPrefixOf_append {inner : Bytes} (h : closeMark <:+: inner) (z : Bytes) :
    commentMark.isPrefixOf (inner ++ z) = commentMark.isPrefixOf inner := by
  rw [Bool.eq_iff_iff, List.isPrefixOf_iff_prefix, List.isPrefixOf_iff_prefix]
  constructor
  · intro h1
    rcases List.prefix_or_prefix_of_prefix h1 (List.prefix_append inner z) with h2 | h2
    · exact h2
    · exact absurd (h.trans h2.isInfix) (by decide)
  · intro h1
    exact h1.trans (List.prefix_append _ _)

/-- The first opening braces of a settled text, and what stands between them and the end. -/
structure Opens (a before inner : Bytes) : Prop where
  eq : a = before ++ openMark ++ inner
  literal : Literal before
  closed : closeMark <:+: inner
  ended : commentMark <+: inner → commentEnd <:+: inner.drop commentMark.length
  settled : Settled inner

theorem Settled.opens {a before inner : Bytes} (h : Settled a)
    (hc : Bytes.cut? openMark a = some (before, inner)) : Opens a before inner := by
  have e := Bytes.eq_of_cut? hc
  have h1 : openMark ++ inner <:+ a := ⟨before, by rw [e, List.append_assoc]⟩
  refine ⟨e, literal_of_passes (Bytes.passes_of_cut? hc), h.closed inner h1, ?_,
    h.suffix ((List.suffix_append _ _).trans h1)⟩
  rintro ⟨w, rfl⟩
  rw [List.drop_left]
  exact h.ended w (by rwa [← List.append_assoc] at h1)

theorem Opens.longComment?_append {a before inner : Bytes} (h : Opens a before inner) (z : Bytes) :
    longComment? (inner ++ z) = (longComment? inner).map fun p => (p.1, p.2 ++ z) := by
  unfold longComment?
  rw [commentMark_isPrefixOf_append h.closed]
  split
  next hm =>
    have h1 := List.isPrefixOf_iff_prefix.1 hm
    obtain ⟨p, hp⟩ : ∃ p, Bytes.cut? commentEnd (inner.drop commentMark.length) = some p := by
      rw [← Option.ne_none_iff_exists', Ne, Bytes.cut?_eq_none_iff, not_not]
      exact h.ended h1
    rw [List.drop_append_of_le_length h1.length_le, hp, Bytes.cut?_append_right hp]
    rfl
  next => rfl

theorem Opens.exists_longComment? {a before inner : Bytes} (h : Opens a before inner)
    (hm : commentMark.isPrefixOf inner = true) : ∃ p, longComment? inner = some p := by
  rw [longComment?, if_pos hm, ← Option.ne_none_iff_exists', Ne, Option.map_eq_none_iff,
    Bytes.cut?_eq_none_iff, not_not]
  exact h.ended (List.isPrefixOf_iff_prefix.1 hm)

theorem commentSpansFrom_append {a : Bytes} (h : Settled a) (z : Bytes) (offset : Nat) :
    commentSpansFrom offset (a ++ z) =
      commentSpansFrom offset a ++ commentSpansFrom (offset + a.length) z := by
  fun_induction commentSpansFrom offset a with
  | case1 offset a hc =>
    exact commentSpansFrom_literal ⟨Bytes.cut?_eq_none_iff.1 hc, h.no_last⟩ z offset
  | case2 offset a before inner hc hm hl =>
    obtain ⟨p, hp⟩ := (h.opens hc).exists_longComment? hm
    rw [hp] at hl
    cases hl
  | case3 offset a before inner hc start hm body after hl stop ih =>
    have h1 := h.opens hc
    have h2 := h1.longComment?_append z
    rw [hl, Option.map_some] at h2
    have h3 : Settled after := h1.settled.suffix ⟨body ++ commentEnd, (eq_of_longComment? hl).symm⟩
    have e : stop + after.length = offset + a.length := by
      rw [h1.eq, eq_of_longComment? hl]
      simp only [stop, start, List.length_append]
      omega
    rw [commentSpansFrom_eq, Bytes.cut?_append_right hc]
    simp only [commentMark_isPrefixOf_append h1.closed, hm, if_true, h2]
    rw [ih h3, e]
    rfl
  | case4 offset a before inner hc start hm ih =>
    have h1 := h.opens hc
    have e : start + openMark.length + inner.length = offset + a.length := by
      rw [h1.eq]
      simp only [start, List.length_append]
      omega
    rw [commentSpansFrom_eq, Bytes.cut?_append_right hc]
    simp only [commentMark_isPrefixOf_append h1.closed, hm]
    rw [if_neg Bool.false_ne_true, ih h1.settled, e]

theorem stop_le_of_mem_commentSpansFrom {offset : Nat} {src : Bytes} :
    ∀ c ∈ commentSpansFrom offset src, c.stop ≤ offset + src.length := by
  fun_induction commentSpansFrom offset src with
  | case1 => simp
  | case2 => simp
  | case3 offset src before inner h start hm body after h1 stop ih =>
    have e := Bytes.length_of_cut? h
    rw [eq_of_longComment? h1] at e
    simp only [List.length_append] at e
    intro c hc
    rcases List.mem_cons.1 hc with rfl | hc
    · simp only [stop, start]
      omega
    · have h2 := ih c hc
      simp only [stop, start] at h2
      omega
  | case4 offset src before inner h start hm ih =>
    have e := Bytes.length_of_cut? h
    intro c hc
    have h2 := ih c hc
    simp only [start] at h2
    omega

/-! ## Scanning -/

/-- The first tag of a settled text ends in it. -/
theorem Settled.scan_append {a before inner : Bytes} (h : Settled a)
    (hc : Bytes.cut? openMark a = some (before, inner)) :
    ∃ t, scan a = some t ∧ Settled t.after ∧
      ∀ z, scan (a ++ z) = some { t with after := t.after ++ z } := by
  have h1 := h.opens hc
  cases hl : longComment? inner with
  | some p =>
    obtain ⟨body, after⟩ := p
    refine ⟨⟨.comment, before, Bytes.trim body, after, false⟩, by simp only [scan, hc, hl],
      h1.settled.suffix ⟨body ++ commentEnd, (eq_of_longComment? hl).symm⟩, fun z => ?_⟩
    have h2 := h1.longComment?_append z
    rw [hl] at h2
    simp only [scan, Bytes.cut?_append_right hc, h2, Option.map_some]
  | none =>
    obtain ⟨p, hp⟩ : ∃ p, Bytes.cut? closeMark inner = some p := by
      rw [← Option.ne_none_iff_exists', Ne, Bytes.cut?_eq_none_iff, not_not]
      exact h1.closed
    obtain ⟨interior, after⟩ := p
    have e := Bytes.eq_of_cut? hp
    -- without a third brace the tag takes nothing from the text behind its closing ones
    have h2 : ∀ w, ofInterior before interior w = { ofInterior before interior [] with after := w } := by
      intro w
      unfold ofInterior
      split
      next r =>
        exfalso
        refine h.no_third ⟨before, r ++ closeMark ++ after, ?_⟩
        rw [h1.eq, e]
        simp [openMark]
      next => rfl
    refine ⟨ofInterior before interior after, by simp only [scan, hc, hl, hp, Option.map_some],
      ?_, fun z => ?_⟩
    · rw [h2]
      exact h1.settled.suffix ⟨interior ++ closeMark, e.symm⟩
    · have h3 := h1.longComment?_append z
      rw [hl, Option.map_none] at h3
      simp only [scan, Bytes.cut?_append_right hc, h3, Bytes.cut?_append_right hp, Option.map_some]
      rw [h2, h2 after]

end Tag

/-! ## Delimiters outside long comments -/

namespace Block

open Delimiter

theorem outside_append_of_lt {n : Nat} {cs cs' ss ss' : List Span} (hc : ∀ c ∈ cs, c.stop ≤ n)
    (hc' : ∀ c ∈ cs', n ≤ c.start) (hs : ∀ s ∈ ss, s.start < n) (hs' : ∀ s ∈ ss', n ≤ s.start) :
    outside (cs ++ cs') (ss ++ ss') = outside cs ss ++ outside cs' ss' := by
  rw [outside, List.filter_append]
  congr 1
  · apply List.filter_congr
    intro s h1
    have h2 : cs'.any (fun c => c.contains s.start) = false := by
      rw [List.any_eq_false]
      intro c h3 h4
      have h5 := hs s h1
      have h6 := hc' c h3
      simp only [Span.contains, Bool.and_eq_true, decide_eq_true_eq] at h4
      omega
    rw [List.any_append, h2, Bool.or_false]
  · apply List.filter_congr
    intro s h1
    have h2 : cs.any (fun c => c.contains s.start) = false := by
      rw [List.any_eq_false]
      intro c h3 h4
      have h5 := hs' s h1
      have h6 := hc c h3
      simp only [Span.contains, Bool.and_eq_true, decide_eq_true_eq] at h4
      omega
    rw [List.any_append, h2, Bool.false_or]

variable {side : Side} {name a z : Bytes}

theorem live_append (hn : ¬ Tag.closeMark <:+: name) (ha : Tag.Settled a)
    (hz : z.head? ≠ some 0x7D) (offset : Nat) :
    live side name offset (a ++ z) =
      live side name offset a ++ live side name (offset + a.length) z := by
  rw [live, Tag.commentSpansFrom_append ha, spansFrom_append_closed hn ha.toClosed hz]
  refine outside_append_of_lt (n := offset + a.length) (fun c hc => ?_) (fun c hc => ?_)
    (fun s hs => ?_) (fun s hs => ?_)
  · exact Tag.stop_le_of_mem_commentSpansFrom c hc
  · exact Tag.le_of_mem_commentSpansFrom c hc
  · have h := mem_spansFrom hs
    omega
  · have h := mem_spansFrom hs
    omega

end Block

end ThemeTemplates
