import ThemeTemplates.Proofs.Fields
import ThemeTemplates.Proofs.Nesting

/-! # Where the scanner and the delimiter patterns agree

* `Tag.spelled src`: the tags that scanning and excising find, each with the text that it takes.
* `Tag.Plain t raw`: the text `raw` of the tag spells nothing that only one of the two recognisers
  sees.
* `Template.compile_of_nested`: a template whose tags are plain and properly nested compiles.

Without plain tags nesting is not enough, as `Template.nested_not_compiled` shows: the patterns look
inside short comments and other tags (`seenInside`), and they read names, blanks and arguments as
characters where the scanner reads bytes (`readOtherwise`).
-/

namespace ThemeTemplates

set_option autoImplicit false

open Delimiter

namespace Tag

/-! ## Tags with their texts -/

/-- What stands between the text before a tag and the text after it. -/
def raw (src : Bytes) (t : Tag) : Bytes :=
  (src.drop t.position).take (src.length - t.position - t.after.length)

/-- The tags of a text with their texts. -/
def spelled (src : Bytes) : List (Tag × Bytes) :=
  match _h : scan src with
  | none => []
  | some t => (t, raw src t) :: spelled t.excise
termination_by src.length
decreasing_by exact length_excise_of_scan _h

theorem spelled_of_none {src : Bytes} (h : scan src = none) : spelled src = [] := by
  rw [spelled]
  split
  next => rfl
  next t h1 => rw [h] at h1; cases h1

theorem spelled_of_some {src : Bytes} {t : Tag} (h : scan src = some t) :
    spelled src = (t, raw src t) :: spelled t.excise := by
  rw [spelled]
  split
  next h1 => rw [h] at h1; cases h1
  next t' h1 =>
    rw [h] at h1
    cases h1
    rfl

/-- They are the tags that scanning and excising finds. -/
theorem map_fst_spelled (src : Bytes) : (spelled src).map Prod.fst = (scanAll src).1 := by
  fun_induction scanAll src with
  | case1 src h => rw [spelled_of_none h]; rfl
  | case2 src t h tags rest h1 ih =>
    rw [spelled_of_some h, List.map_cons, ih, h1]

theorem raw_of_append {src x : Bytes} {t : Tag} (h : src = t.before ++ (x ++ t.after)) :
    raw src t = x := by
  have e : src.length - t.position - t.after.length = x.length := by
    rw [h, List.length_append, List.length_append, position]
    omega
  rw [raw, e, h, position, List.drop_left, List.take_left]

/-- Literal text in front of a text leaves the texts of its tags. -/
theorem spelled_append {w : Bytes} (hw : Literal w) (n : Nat) : ∀ {s : Bytes}, s.length ≤ n →
    spelled (w ++ s) = (spelled s).map fun p => (p.1.behind w, p.2) := by
  induction n with
  | zero =>
    intro s hn
    obtain rfl : s = [] := List.length_eq_zero_iff.1 (by omega)
    have h1 : scan [] = none := by decide
    have h2 : scan (w ++ []) = none := by rw [scan_append hw, h1]; rfl
    rw [spelled_of_none h1, spelled_of_none h2]
    rfl
  | succ n ih =>
    intro s hn
    cases hs : scan s with
    | none =>
      have h2 : scan (w ++ s) = none := by rw [scan_append hw, hs]; rfl
      rw [spelled_of_none hs, spelled_of_none h2]
      rfl
    | some t =>
      have h2 : scan (w ++ s) = some (t.behind w) := by rw [scan_append hw, hs]; rfl
      have h3 := length_excise_of_scan hs
      obtain ⟨body, e, -⟩ := exists_of_scan hs
      have e1 : s = t.before ++ ((openMark ++ body) ++ t.after) := by rw [e, List.append_assoc]
      have e2 : w ++ s = (t.behind w).before ++ ((openMark ++ body) ++ (t.behind w).after) := by
        rw [e1, behind, List.append_assoc w]
      have e3 : (t.behind w).excise = w ++ t.excise := by
        rw [excise, excise, behind, List.append_assoc]
      rw [spelled_of_some hs, spelled_of_some h2, raw_of_append e1, raw_of_append e2, e3,
        ih (by omega)]
      rfl

theorem spelled_eq {src : Bytes} {t : Tag} (h : scan src = some t) :
    spelled src = (t, raw src t) :: (spelled t.after).map fun p => (p.1.behind t.before, p.2) := by
  rw [spelled_of_some h, excise, spelled_append (literal_before h) _ (Nat.le_refl _)]

/-- A tag is a long comment, or it ends with the first closing braces. -/
theorem scan_cases {src : Bytes} {t : Tag} (h : scan src = some t) :
    (∃ body, Remark body ∧ src = t.before ++ (remark body ++ t.after) ∧ t.kind = .comment) ∨
    ∃ interior z, Interior interior ∧ longComment? (interior ++ closeMark ++ z) = none ∧
      src = t.before ++ (braced interior ++ z) ∧ t = ofInterior t.before interior z := by
  unfold scan at h
  split at h
  next => cases h
  next before inner h1 =>
    have e := Bytes.eq_of_cut? h1
    split at h
    next body after h2 =>
      cases h
      left
      unfold longComment? at h2
      split at h2
      next h3 =>
        obtain ⟨⟨x, y⟩, h4, h5⟩ := Option.map_eq_some_iff.1 h2
        cases h5
        obtain ⟨e1, h6⟩ := Bytes.cut?_eq_some_iff.1 h4
        have e2 := Bytes.append_drop_of_isPrefixOf h3
        refine ⟨x, ?_, ?_, rfl⟩
        · intro u hu hne h7
          exact h6 u hu hne (h7.trans ⟨y, by simp⟩)
        · rw [e, ← e2, e1, remark]
          simp
      next => cases h2
    next h2 =>
      obtain ⟨⟨interior, z⟩, h3, rfl⟩ := Option.map_eq_some_iff.1 h
      obtain ⟨e1, h4⟩ := Bytes.cut?_eq_some_iff.1 h3
      refine .inr ⟨interior, z, interior_of_passes h4, by rwa [← e1], ?_, ?_⟩
      · rw [ofInterior_before, e, e1, braced]
        simp
      · rw [ofInterior_before]

/-! ## Plain tags -/

/-- The text behind the sign of an opener or closer. -/
def afterSign (t : Tag) (raw : Bytes) : Bytes :=
  ((raw.drop (if t.unescaped then 3 else 2)).dropWhile Bytes.isBlank).drop 1

/-- The text of a bracket holds its name right behind the sign; it is well-formed and holds neither
a closing brace nor, in the name, a blank. A tag that is no bracket does not look like one. -/
def PlainSign (t : Tag) (raw : Bytes) : Prop :=
  match t.bracket? with
  | none => isHead raw = false
  | some b => (∀ c ∈ (afterSign t raw).head?, Bytes.isBlank c = false) ∧
      Utf8.encode (Utf8.decode t.content) = t.content ∧ '\x7d' ∉ Utf8.decode t.content ∧
      Utf8.encode (Utf8.decode b.name) = b.name ∧ ∀ c ∈ Utf8.decode b.name, Text.isBlank c = false

/-- A long comment, or a tag that holds no head and no long comment behind its opening braces and
takes no opening brace from the text behind it. -/
def Plain (t : Tag) (raw : Bytes) : Prop :=
  longComment? (raw.drop 2) ≠ none ∨
    Headless (raw.drop 2) ∧ ¬ openMark ++ commentMark <:+: raw.drop 2 ∧
      raw.getLast? ≠ some 0x7B ∧ PlainSign t raw

-- the quantifiers run over the members, not over all bytes and all characters
instance (t : Tag) (raw : Bytes) : Decidable (PlainSign t raw) := by
  unfold PlainSign
  haveI h1 : ∀ o : Option UInt8, Decidable (∀ c ∈ o, Bytes.isBlank c = false) :=
    fun o => Option.decidableForallMem o
  haveI h2 : ∀ cs : List Char, Decidable (∀ c ∈ cs, Text.isBlank c = false) :=
    fun cs => List.decidableBAll _ cs
  split <;> infer_instance

instance (t : Tag) (raw : Bytes) : Decidable (Plain t raw) := by
  unfold Plain
  infer_instance

/-! ## What an interior says -/

theorem reading_shape (interior : Bytes) : ∃ o r, (o = [] ∨ o = [0x7B]) ∧ interior = o ++ r ∧
    (reading interior).kind = (classify (Bytes.trim r)).1 ∧
    (reading interior).content = (classify (Bytes.trim r)).2 ∧
    (if (reading interior).unescaped then 3 else 2) = 2 + o.length := by
  unfold reading ofInterior
  split
  next r => exact ⟨[0x7B], r, .inr rfl, rfl, rfl, rfl, rfl⟩
  next h => exact ⟨[], interior, .inl rfl, rfl, rfl, rfl, rfl⟩

theorem eq_of_classify_opener {c : Bytes} (h : (classify c).1 = .opener) :
    c = 0x23 :: (classify c).2 := by
  unfold classify at h ⊢
  split at h
  next => cases h
  next hc =>
    rw [if_neg hc]
    split at h
    next => rfl
    next => cases h
    next => cases h

theorem eq_of_classify_closer {c : Bytes} (h : (classify c).1 = .closer) :
    ∃ r, c = 0x2F :: r ∧ (classify c).2 = Bytes.trim r := by
  unfold classify at h ⊢
  split at h
  next => cases h
  next hc =>
    rw [if_neg hc]
    split at h
    next => cases h
    next r => exact ⟨r, rfl, rfl⟩
    next => cases h

theorem afterSign_eq {t : Tag} {interior o lead r : Bytes} {sign : UInt8}
    (e : interior = o ++ (lead ++ sign :: r))
    (ho : (if t.unescaped then 3 else 2) = 2 + o.length) (hl : Bytes.Blank lead)
    (hs : Bytes.isBlank sign = false) (u : Bytes) :
    afterSign t (braced interior ++ u) = r ++ (closeMark ++ u) := by
  have e1 : braced interior ++ u =
      (openMark ++ o) ++ (lead ++ sign :: (r ++ (closeMark ++ u))) := by
    rw [e]
    simp [braced]
  have e2 : 2 + o.length = (openMark ++ o).length := by
    rw [List.length_append]
    rfl
  rw [afterSign, ho, e1, e2, List.drop_left, Bytes.dropWhile_append hl,
    List.dropWhile_cons_of_neg (by simp [hs])]
  rfl

theorem word_of_decode {name : Bytes} (h1 : Utf8.encode (Utf8.decode name) = name)
    (h2 : ∀ c ∈ Utf8.decode name, Text.isBlank c = false) (h3 : 0x7D ∉ name) : Word name := by
  refine ⟨Utf8.decode name, h1.symm, fun c hc => ⟨h2 c hc, ?_⟩⟩
  rintro rfl
  refine h3 ?_
  rw [← h1]
  exact (Utf8.mem_encode_iff (by decide)).2 hc

theorem tail_of_blank {side : Side} {trail : Bytes} (h : Bytes.Blank trail) : Tail side trail := by
  obtain ⟨cs, rfl, h1⟩ := Text.exists_encode_of_isBlank h
  refine ⟨cs, rfl, fun h2 => ?_, fun c hc => h1 c (List.mem_of_mem_head? hc), fun _ => h1⟩
  exact absurd (h1 _ h2) (by decide)

/-- What follows the name in an opener that has well-formed content. -/
theorem tail_of_content {cs ns : List Char} {rest trail : Bytes} (hc : '\x7d' ∉ cs)
    (h : Utf8.encode cs = Utf8.encode ns ++ rest) (hr : ∀ b ∈ rest.head?, Bytes.isBlank b = true)
    (ht : Bytes.Blank trail) : Tail .opener (rest ++ trail) := by
  obtain ⟨ts, rfl, h1⟩ := Text.exists_encode_of_isBlank ht
  obtain ⟨es, rfl, rfl⟩ : ∃ es, cs = ns ++ es ∧ rest = Utf8.encode es := by
    rcases Utf8.prefix_or_prefix ((List.append_nil _).trans h) with ⟨es, rfl, h2⟩ | ⟨es, rfl, h2⟩
    · obtain ⟨h3, rfl⟩ := List.append_eq_nil_iff.1 h2.symm
      obtain rfl : es = [] := Utf8.encode_injective h3
      exact ⟨[], by simp, rfl⟩
    · exact ⟨es, rfl, by rw [h2, List.append_nil]⟩
  refine ⟨es ++ ts, (Utf8.encode_append es ts).symm, ?_, ?_, by simp⟩
  · rw [List.mem_append, not_or]
    refine ⟨fun h2 => hc (List.mem_append_right _ h2), fun h2 => ?_⟩
    exact absurd (h1 _ h2) (by decide)
  · intro c hc'
    cases es with
    | nil => exact h1 c (List.mem_of_mem_head? hc')
    | cons e es =>
      obtain rfl : e = c := by simpa using hc'
      cases he : Utf8.encodeChar e with
      | nil => exact absurd he (Utf8.encodeChar_ne_nil e)
      | cons b x =>
        -- the first byte is an ASCII blank, so it is the whole character
        have h2 : Bytes.isBlank b = true := hr b (by rw [Utf8.encode_cons, he]; rfl)
        obtain ⟨-, rfl⟩ := Utf8.encodeChar_of_mem (by rw [he]; simp) (Bytes.lt_of_isBlank h2)
        exact Text.isBlank_asciiChar h2

/-- The name of a block that starts right at the content. -/
theorem content_of_blockName? {content name : Bytes}
    (h : Template.blockName? content = some name)
    (hd : ∀ b ∈ content.head?, Bytes.isBlank b = false) :
    ∃ rest, content = name ++ rest ∧ ∀ b ∈ rest.head?, Bytes.isBlank b = true := by
  have hne : content ≠ [] := by
    rintro rfl
    cases h
  have e : content.dropWhile Bytes.isBlank = content := by
    have h1 := Bytes.dropWhile_of_head? (s := []) hd hne
    rwa [List.append_nil] at h1
  rw [Template.blockName?, Bytes.head?_fields, e, if_neg hne, Option.some.injEq] at h
  refine ⟨content.dropWhile fun b => !Bytes.isBlank b, ?_, ?_⟩
  · rw [← h, List.takeWhile_append_dropWhile]
  · intro b hb
    have h1 := List.head?_dropWhile_not (fun b => !Bytes.isBlank b) content
    rw [Option.mem_def] at hb
    rw [hb] at h1
    simpa using h1

theorem opener_shape {interior : Bytes} (hk : (reading interior).kind = .opener) :
    ∃ o lead c trail, (o = [] ∨ o = [0x7B]) ∧ Bytes.Blank lead ∧ Bytes.Blank trail ∧
      interior = o ++ (lead ++ 0x23 :: (c ++ trail)) ∧ (reading interior).content = c ∧
      (if (reading interior).unescaped then 3 else 2) = 2 + o.length := by
  obtain ⟨o, r, ho, e, h1, h2, h3⟩ := reading_shape interior
  obtain ⟨lead, trail, e1, hl, ht, -⟩ := Bytes.exists_trim r
  have e2 := eq_of_classify_opener (h1.symm.trans hk)
  refine ⟨o, lead, (classify (Bytes.trim r)).2, trail, ho, hl, ht, ?_, h2, h3⟩
  rw [← List.cons_append, ← e2, ← e1, e]

theorem closer_shape {interior : Bytes} (hk : (reading interior).kind = .closer) :
    ∃ o lead c trail, (o = [] ∨ o = [0x7B]) ∧ Bytes.Blank lead ∧ Bytes.Blank trail ∧
      interior = o ++ (lead ++ 0x2F :: (c ++ trail)) ∧ (reading interior).content = Bytes.trim c ∧
      (∀ b ∈ c.getLast?, Bytes.isBlank b = false) ∧
      (if (reading interior).unescaped then 3 else 2) = 2 + o.length := by
  obtain ⟨o, r, ho, e, h1, h2, h3⟩ := reading_shape interior
  obtain ⟨lead, trail, e1, hl, ht, h4⟩ := Bytes.exists_trim r
  obtain ⟨c, e2, h5⟩ := eq_of_classify_closer (h1.symm.trans hk)
  refine ⟨o, lead, c, trail, ho, hl, ht, ?_, h2.trans h5, ?_, h3⟩
  · rw [← List.cons_append, ← e2, ← e1, e]
  · intro b hb
    refine h4.last b ?_
    cases c with
    | nil => cases hb
    | cons x c => rwa [e2, List.getLast?_cons_cons]

theorem head?_append_of_mem {w s : Bytes} {b : UInt8} (h : b ∈ w.head?) : b ∈ (w ++ s).head? := by
  obtain ⟨t, rfl⟩ : ∃ t, w = b :: t := List.head?_eq_some_iff.1 h
  rfl

theorem spells_opener {interior u name : Bytes} (hk : (reading interior).kind = .opener)
    (hn : Template.blockName? (reading interior).content = some name)
    (hp : PlainSign (reading interior) (braced interior ++ u)) :
    Word name ∧ Spells .opener name interior := by
  have hb : (reading interior).bracket? = some (.opening name) := by simp [bracket?, hk, hn]
  obtain ⟨o, lead, c, trail, ho, hl, ht, e, hcontent, hu⟩ := opener_shape hk
  rw [PlainSign, hb, hcontent, afterSign_eq e hu hl (by decide)] at hp
  rw [hcontent] at hn
  obtain ⟨hd, hc, hbrace, hname, hblank⟩ := hp
  obtain ⟨rest, rfl, hr⟩ := content_of_blockName? hn fun b h => hd b (by
    rw [List.append_assoc]
    exact head?_append_of_mem h)
  have h1 : 0x7D ∉ name := by
    intro h
    refine hbrace ((Utf8.mem_encode_iff (b := 0x7D) (by decide)).1 ?_)
    rw [hc]
    exact List.mem_append_left _ h
  have h2 : Utf8.encode (Utf8.decode (name ++ rest)) = Utf8.encode (Utf8.decode name) ++ rest := by
    rw [hc]
    exact congrArg (· ++ rest) hname.symm
  obtain ⟨cs, h3, h4⟩ := Text.exists_encode_of_isBlank hl
  refine ⟨word_of_decode hname hblank h1, o, cs, rest ++ trail, ho, h4,
    tail_of_content hbrace h2 hr ht, ?_⟩
  rw [e, h3, List.append_assoc]
  rfl

theorem spells_closer {interior u : Bytes} (hk : (reading interior).kind = .closer)
    (hp : PlainSign (reading interior) (braced interior ++ u)) :
    Word (reading interior).content ∧ Spells .closer (reading interior).content interior := by
  have hb : (reading interior).bracket? = some (.closing (reading interior).content) := by
    simp [bracket?, hk]
  obtain ⟨o, lead, c, trail, ho, hl, ht, e, hcontent, hlast, hu⟩ := closer_shape hk
  rw [PlainSign, hb, afterSign_eq e hu hl (by decide)] at hp
  obtain ⟨hd, -, hbrace, hname, hblank⟩ := hp
  have h1 : Bytes.trim c = c := Bytes.trim_of_trimmed ⟨fun b h => hd b (by
    rw [List.append_assoc]
    exact head?_append_of_mem h), hlast⟩
  rw [h1] at hcontent
  rw [hcontent] at hbrace hname hblank ⊢
  have h2 : 0x7D ∉ c := by
    intro h
    refine hbrace ((Utf8.mem_encode_iff (b := 0x7D) (by decide)).1 ?_)
    rwa [show Utf8.encode (Utf8.decode c) = c from hname]
  obtain ⟨cs, h3, h4⟩ := Text.exists_encode_of_isBlank hl
  refine ⟨word_of_decode hname hblank h2, o, cs, trail, ho, h4, tail_of_blank ht, ?_⟩
  rw [e, h3]
  rfl

/-- The patterns recognise a plain tag. -/
theorem recognised_of_plain {interior u : Bytes}
    (hp : PlainSign (reading interior) (braced interior ++ u))
    (hn : ∀ n, (reading interior).bracket? = some (.opening n) → n ≠ []) :
    Piece.Recognised interior := by
  unfold Piece.Recognised
  split
  next hk =>
    cases hb : Template.blockName? (reading interior).content with
    | none => exact absurd rfl (hn [] (by simp [bracket?, hk, hb]))
    | some name => exact ⟨name, rfl, spells_opener hk hb hp⟩
  next hk => exact spells_closer hk hp
  next hk hk' =>
    have hb : (reading interior).bracket? = none := by
      unfold bracket?
      split
      next h => exact absurd h hk
      next h => exact absurd h hk'
      next => rfl
    rw [PlainSign, hb] at hp
    have e1 : braced interior ++ u = openMark ++ interior ++ 0x7D :: (0x7D :: u) := by
      simp [braced, closeMark]
    have e2 : braced interior = openMark ++ interior ++ 0x7D :: [0x7D] := rfl
    simp only [e1, isHead_append_brace] at hp
    rw [e2, isHead_append_brace]
    exact hp

end Tag

/-! ## Plain texts in pieces -/

namespace Piece

open Tag

theorem literal_of_head? {u : Bytes} (h : u.head? ≠ some 0x7B) (hl : u.length ≤ 1) : Literal u := by
  match u with
  | [] => exact Literal.nil
  | [b] => exact literal_singleton (by simpa using h)
  | _ :: _ :: _ => simp at hl

/-- What a tag takes from a text that may follow it. -/
theorem exists_spare {t : Tag} {z : Bytes} (h : t.unescaped = true → z.head? ≠ some 0x7B) :
    ∃ spare rest, z = spare ++ rest ∧ t.Spare spare rest := by
  by_cases hk : t.kind = .closer
  · by_cases hz : z.head? = some 0x7D
    · obtain ⟨z, rfl⟩ := List.head?_eq_some_iff.1 hz
      exact ⟨[0x7D], z, rfl, by rw [Spare, if_pos hk]; exact .inr rfl⟩
    · exact ⟨[], z, rfl, by rw [Spare, if_pos hk]; exact .inl ⟨rfl, hz⟩⟩
  · cases hu : t.unescaped with
    | false => exact ⟨[], z, rfl, by rw [Spare, if_neg hk, hu]; rfl⟩
    | true =>
      cases z with
      | nil => exact ⟨[], [], rfl, by rw [Spare, if_neg hk, hu]; exact .inr ⟨rfl, rfl⟩⟩
      | cons b z =>
        have hb : b ≠ 0x7B := by simpa using h hu
        exact ⟨[b], z, rfl, by rw [Spare, if_neg hk, hu]; exact .inl ⟨b, hb, rfl⟩⟩

/-- The tags are plain, and the openers have names. -/
def Clear (l : List (Tag × Bytes)) : Prop :=
  ∀ p ∈ l, Plain p.1 p.2 ∧ ∀ m, p.1.bracket? = some (.opening m) → m ≠ []

theorem clear_behind {w : Bytes} {l : List (Tag × Bytes)} :
    Clear (l.map fun p => (p.1.behind w, p.2)) ↔ Clear l := by
  unfold Clear
  rw [List.forall_mem_map]
  exact Iff.rfl

theorem brackets_behind (w : Bytes) (l : List (Tag × Bytes)) :
    (l.map fun p => (p.1.behind w, p.2)).filterMap (fun p => p.1.bracket?) =
      l.filterMap fun p => p.1.bracket? := by
  rw [List.filterMap_map]
  rfl

/-- A plain tag that is no long comment. -/
theorem plain_of_tag {t : Tag} {interior u z : Bytes} (hp : Plain t (braced interior ++ u))
    (hl : longComment? (interior ++ closeMark ++ z) = none) (hu : u <+: z) :
    Headless (interior ++ closeMark ++ u) ∧
      ¬ openMark ++ commentMark <:+: interior ++ closeMark ++ u ∧
      (braced interior ++ u).getLast? ≠ some 0x7B ∧ PlainSign t (braced interior ++ u) := by
  have e : (braced interior ++ u).drop 2 = interior ++ closeMark ++ u := by
    rw [braced_append]
    rfl
  rw [Plain, e] at hp
  refine hp.resolve_left fun h => h ?_
  obtain ⟨x, rfl⟩ := hu
  rw [← List.append_assoc] at hl
  exact longComment?_of_append hl

theorem fitsTag_of_plain {interior u spare rest : Bytes} (hi : Interior interior)
    (hl : longComment? (interior ++ closeMark ++ (spare ++ rest)) = none)
    (hu : u <+: spare ++ rest) (hp : Plain (reading interior) (braced interior ++ u))
    (hn : ∀ n, (reading interior).bracket? = some (.opening n) → n ≠ [])
    (hs : (reading interior).Spare spare rest) : FitsTag interior spare rest := by
  obtain ⟨h1, h2, -, h3⟩ := plain_of_tag hp hl hu
  refine ⟨hi, hl, fun h => h2 (h.trans ?_), ?_, recognised_of_plain h3 hn, hs⟩
  · rw [List.append_assoc]
    exact (List.prefix_append _ _).isInfix
  · intro v hv
    have h4 := h1 (v ++ 0x7D :: (0x7D :: u)) (by
      rw [List.mem_tails] at hv ⊢
      obtain ⟨y, rfl⟩ := hv
      exact ⟨y, by simp [closeMark]⟩)
    rwa [isHead_append_brace] at h4

theorem ofInterior_reading (before interior z : Bytes) : ofInterior before interior z =
    { reading interior with
      before := before
      after := if (reading interior).unescaped then z.drop 1 else z } := by
  unfold reading ofInterior
  split <;> rfl

/-- What the scanner takes from the text behind the closing braces. -/
theorem exists_taken {before interior z : Bytes} {t : Tag} (ht : t = ofInterior before interior z) :
    ∃ u, z = u ++ t.after ∧ raw (before ++ (braced interior ++ z)) t = braced interior ++ u ∧
      u = if (reading interior).unescaped then z.take 1 else [] := by
  rw [ofInterior_reading] at ht
  have hb : t.before = before := by rw [ht]
  have ha : t.after = if (reading interior).unescaped then z.drop 1 else z := by rw [ht]
  have hz : z = (if (reading interior).unescaped then z.take 1 else []) ++ t.after := by
    rw [ha]
    split
    · exact (List.take_append_drop 1 z).symm
    · rfl
  refine ⟨_, hz, raw_of_append ?_, rfl⟩
  rw [hb, List.append_assoc, ← hz]

/-- A plain tag as a piece. What the piece takes from the text behind the closing braces may differ
from what the scanner takes, but what is left has the same tags. -/
theorem exists_fitsTag {before interior z : Bytes} {t : Tag} (hi : Interior interior)
    (hl : longComment? (interior ++ closeMark ++ z) = none) (ht : t = ofInterior before interior z)
    (hc : Clear [(t, raw (before ++ (braced interior ++ z)) t)]) :
    ∃ u spare rest, z = u ++ t.after ∧ Literal u ∧ z = spare ++ rest ∧
      FitsTag interior spare rest := by
  obtain ⟨u, hz, hraw, hu⟩ := exists_taken ht
  obtain ⟨hp, hn⟩ := hc _ (List.mem_singleton_self _)
  have hprefix : u <+: z := ⟨t.after, hz.symm⟩
  rw [ofInterior_reading] at ht
  have e1 : t.bracket? = (reading interior).bracket? := by rw [ht]; rfl
  have e2 : Plain t = Plain (reading interior) := by rw [ht]; rfl
  simp only [hraw, e1, e2] at hp hn
  have hhead : (reading interior).unescaped = true → z.head? ≠ some 0x7B := by
    intro h1 h2
    obtain ⟨z, rfl⟩ := List.head?_eq_some_iff.1 h2
    have h3 : u = [0x7B] := by rw [hu, if_pos h1]; rfl
    refine (plain_of_tag hp hl hprefix).2.2.1 ?_
    rw [h3, List.getLast?_append]
    rfl
  obtain ⟨spare, rest, rfl, h2⟩ := exists_spare hhead
  refine ⟨u, spare, rest, hz, ?_, rfl, fitsTag_of_plain hi hl hprefix hp hn h2⟩
  rw [hu]
  split
  next h3 =>
    refine literal_of_head? ?_ (by rw [List.length_take]; omega)
    rw [List.head?_take, if_neg (by decide)]
    exact hhead h3
  next => exact Literal.nil

/-- A text with plain tags is made of legible pieces. The induction is on its length. -/
theorem exists_pieces (n : Nat) : ∀ {src : Bytes}, src.length ≤ n → Clear (spelled src) →
    ∃ ps, join ps = src ∧ Legible ps ∧
      brackets ps = (spelled src).filterMap fun p => p.1.bracket? := by
  induction n with
  | zero =>
    intro src hn _
    obtain rfl : src = [] := List.length_eq_zero_iff.1 (by omega)
    exact ⟨[], rfl, trivial, by rw [spelled_of_none (by decide)]; rfl⟩
  | succ n ih =>
    intro src hn hc
    cases hs : scan src with
    | none =>
      refine ⟨[text src], List.append_nil src, ⟨.inr ⟨hs, rfl⟩, trivial⟩, ?_⟩
      rw [spelled_of_none hs]
      rfl
    | some t =>
      have hlen := length_of_scan hs
      have hbefore := literal_before hs
      rw [spelled_eq hs] at hc ⊢
      have hc' : Clear (spelled t.after) :=
        clear_behind.1 fun p hp => hc p (List.mem_cons_of_mem _ hp)
      rw [List.filterMap_cons, brackets_behind]
      rcases scan_cases hs with ⟨body, hr, e, hk⟩ | ⟨interior, z, hi, hl, e, ht⟩
      · obtain ⟨ps, h1, h2, h3⟩ := ih (by omega) hc'
        have hb : t.bracket? = none := by simp [Tag.bracket?, hk]
        refine ⟨text t.before :: remark body :: ps, ?_, ⟨.inl hbefore, hr, h2⟩, ?_⟩
        · rw [join_cons, join_cons, h1]
          exact e.symm
        · simp only [hb]
          exact h3
      · have hct : Clear [(t, raw src t)] := fun p hp => hc p (by
          rw [List.mem_singleton] at hp
          rw [hp]
          exact List.mem_cons_self)
        rw [e] at hct
        obtain ⟨u, spare, rest, hz, hu, rfl, hf⟩ := exists_fitsTag hi hl ht hct
        have hsp : Literal spare := literal_of_spare hf.spare
        -- the tags behind are those of the rest
        have h4 : ((spelled rest).map fun p => (p.1.behind spare, p.2)) =
            (spelled t.after).map fun p => (p.1.behind u, p.2) := by
          rw [← spelled_append hsp _ (Nat.le_refl _), ← spelled_append hu _ (Nat.le_refl _), hz]
        have hcr : Clear (spelled rest) := by
          rw [← clear_behind, h4, clear_behind]
          exact hc'
        have hlr : rest.length ≤ n := by
          have h5 := congrArg List.length e
          rw [List.length_append, List.length_append, List.length_append, length_braced] at h5
          omega
        obtain ⟨ps, h1, h2, h3⟩ := ih hlr hcr
        refine ⟨text t.before :: tag interior spare :: ps, ?_, ⟨.inl hbefore, ?_, h2⟩, ?_⟩
        · rw [join_cons, join_cons, h1, e, bytes, bytes, List.append_assoc]
        · rw [h1]
          exact hf
        · have hb : t.bracket? = (tag interior spare).bracket? := by
            rw [ht, ofInterior_reading]
            rfl
          rw [← brackets_behind u, ← h4, brackets_behind, ← h3, hb]
          cases hb' : (tag interior spare).bracket? with
          | none => exact List.filterMap_cons_none hb'
          | some b => exact List.filterMap_cons_some hb'

end Piece

namespace Tag

theorem exists_of_mem_spelled {src : Bytes} {p : Tag × Bytes} (h : p ∈ spelled src) :
    ∃ s, scan s = some p.1 ∧ p.2 = raw s p.1 := by
  fun_induction spelled src with
  | case1 => cases h
  | case2 src t hs ih =>
    rcases List.mem_cons.1 h with rfl | h
    · exact ⟨src, hs, rfl⟩
    · exact ih h

/-- The patterns of its own name match a plain opener or closer, whatever follows. -/
theorem isSome_length?_of_clear {src : Bytes} (hc : Piece.Clear (spelled src)) {p : Tag × Bytes}
    (hp : p ∈ spelled src) {side : Side} {n : Bytes}
    (hb : p.1.bracket? = some (side.bracket n)) (s : Bytes) :
    (length? side (Utf8.encode (Utf8.decode n)) (p.2 ++ s)).isSome := by
  obtain ⟨src', hs, hr⟩ := exists_of_mem_spelled hp
  obtain ⟨t, r⟩ := p
  simp only at hs hr hb
  rcases scan_cases hs with ⟨body, -, -, hk⟩ | ⟨interior, z, hi, hl, e, ht⟩
  · simp [bracket?, hk] at hb
  have hct : Piece.Clear [(t, raw src' t)] := fun q hq => by
    rw [List.mem_singleton] at hq
    rw [hq, ← hr]
    exact hc _ hp
  obtain ⟨u, hz, hraw, -⟩ := Piece.exists_taken ht
  rw [e] at hct hr
  obtain ⟨-, spare, rest, -, -, -, hf⟩ := Piece.exists_fitsTag hi hl ht hct
  rw [Piece.ofInterior_reading] at ht
  have hbr : (Piece.tag interior spare).bracket? = some (side.bracket n) := by
    rw [← hb, ht]
    rfl
  rcases hf.cases with ⟨side', n', h1, ⟨cs, rfl, -⟩, h2⟩ | ⟨h1, -⟩
  · rw [hbr, Option.some.injEq] at h1
    obtain ⟨rfl, rfl⟩ := Piece.bracket_inj h1
    rw [hr, hraw, List.append_assoc, Utf8.decode_encode, length?_of_spells h2]
    rfl
  · rw [hbr] at h1
    cases h1

end Tag

namespace Template

/-- A template with plain tags compiles if its openers and closers are properly nested, and the
delimiter patterns match each of them. -/
theorem compile_of_nested {Context : Type} (functions : Functions Context) (src : Bytes)
    (name : String) (hn : Bracket.Nested ((Tag.scanAll src).1.filterMap Tag.bracket?))
    (hp : ∀ p ∈ Tag.spelled src, Tag.Plain p.1 p.2) :
    (∃ root, compile functions src name = .ok root) ∧
      ∀ p ∈ Tag.spelled src, ∀ (side : Side) (n : Bytes), p.1.bracket? = some (side.bracket n) →
        ∀ s, (length? side (Utf8.encode (Utf8.decode n)) (p.2 ++ s)).isSome := by
  rw [← Tag.map_fst_spelled, List.filterMap_map] at hn
  have hc : Piece.Clear (Tag.spelled src) := by
    refine fun p h => ⟨hp p h, fun m hm => Bracket.ne_nil_of_closes hn ?_⟩
    exact List.mem_filterMap.2 ⟨p, h, hm⟩
  refine ⟨?_, fun p h side n hb s => Tag.isSome_length?_of_clear hc h hb s⟩
  obtain ⟨ps, rfl, h2, h3⟩ := Piece.exists_pieces src.length (Nat.le_refl _) hc
  have h4 : Bracket.Nested (Piece.brackets ps) := by
    rw [h3]
    exact hn
  obtain ⟨f, hf⟩ : ∃ f, Piece.Builds functions 0 ps f := Piece.exists_builds_iff.2 h4
  exact ⟨_, compile_eq_ok_iff.2 ⟨f, compiles_iff.2 (hf.fragment h2), rfl⟩⟩

/-- A tag with this text between its braces. -/
def written (s : String) : Bytes := Tag.braced (Utf8.ofString s)

theorem compile_of_nested_each :
    (∃ root, compile ([] : Functions Unit) (written "#each xs" ++ written "! note" ++
      Tag.remark (written "/each") ++ written "name" ++ written "/each " ++ [0x7D]) "t" =
        .ok root) ∧
    ∀ p ∈ Tag.spelled (written "#each xs" ++ written "! note" ++
        Tag.remark (written "/each") ++ written "name" ++ written "/each " ++ [0x7D]),
      ∀ (side : Side) (n : Bytes), p.1.bracket? = some (side.bracket n) →
        ∀ s, (length? side (Utf8.encode (Utf8.decode n)) (p.2 ++ s)).isSome :=
  compile_of_nested [] _ "t" (by decide +kernel) (by decide +kernel)

/-- The tags are properly nested, and yet the template does not compile. -/
def Missed (src : Bytes) : Prop :=
  Bracket.Nested ((Tag.scanAll src).1.filterMap Tag.bracket?) ∧
    ¬ ∃ root, compile ([] : Functions Unit) src "t" = .ok root

instance (src : Bytes) : Decidable (Missed src) :=
  decidable_of_iff (Bracket.Nested ((Tag.scanAll src).1.filterMap Tag.bracket?) ∧
      (compile ([] : Functions Unit) src "t").isOk = false) <| by
    unfold Missed
    cases compile ([] : Functions Unit) src "t" <;> simp [Except.isOk, Except.toBool]

/-- A tag holds what is a delimiter, or the start of a long comment, to the patterns alone. -/
def seenInside : List Bytes := [
  -- a closer in a short comment
  written "#if a" ++ written "! \x7b\x7b/if" ++ [0x20] ++ written "/if",
  -- an opener, and the start of a long comment, in an expression
  written "#if a" ++ written "foo \x7b\x7b#if b" ++ [0x78] ++ written "/if",
  written "#if a" ++ written "foo \x7b\x7b!-- " ++ written "/if" ++ Tag.commentEnd,
  -- a tag that takes the first brace of a closer
  written "#if a" ++ written "\x7by" ++ written "/if" ++ [0x78] ++ written "/if",
  -- an expression that starts with a blank which is no ASCII blank, and a slash
  written "#if a" ++ written "\x0b/if" ++ [0x78] ++ written "/if"]

theorem missed_of_mem_seenInside : ∀ src ∈ seenInside, Missed src := by decide +kernel

/-- An opener or a closer is spelled in a way that the patterns miss, or that they read as another
name. -/
def readOtherwise : List Bytes := [
  -- a blank behind the sign
  written "#if a" ++ [0x78] ++ written "/ if",
  written "#if" ++ written "# if" ++ [0x78] ++ written "/if" ++ [0x79] ++ written "/if",
  -- malformed text, and a closing brace, behind the name of an opener
  written "#if a" ++ Tag.braced (Utf8.ofString "#if " ++ [0xFF]) ++ [0x78] ++ written "/if" ++
    [0x79] ++ written "/if",
  written "#if a" ++ written "#if a\x7db" ++ [0x78] ++ written "/if" ++ [0x79] ++ written "/if",
  -- a malformed byte, a closing brace, and a blank that is no ASCII blank, in a name
  Tag.braced [0x23, 0xFF] ++ [0x78] ++ Tag.braced [0x2F, 0xFF],
  written "#m\x7d a" ++ written "#m" ++ [0x7D, 0x78] ++ written "/m" ++ written "/m\x7d ",
  written "#if a" ++ written "#if\x0ba" ++ [0x78] ++ written "/if\x0ba" ++ written "/if"]

theorem missed_of_mem_readOtherwise : ∀ src ∈ readOtherwise, Missed src := by decide +kernel

/-- Nesting is not enough for two reasons: the patterns look inside other tags, and they do not know
every spelling that the scanner takes. -/
theorem nested_not_compiled :
    (∀ src ∈ seenInside, Missed src) ∧ ∀ src ∈ readOtherwise, Missed src :=
  ⟨missed_of_mem_seenInside, missed_of_mem_readOtherwise⟩

end Template

end ThemeTemplates
