import ThemeTemplates.Proofs.ArgumentItems
import ThemeTemplates.Proofs.Marks

/-! # The named pairs of a text, by their pattern

A named pair is a key of characters that are not blank, an equals sign with blanks around it, and a
line of text between quotes. Several stretches of a text fit this pattern. The one that counts
starts first; of those that start there it has the shortest key, and then the shortest value. The
search goes on where it ends.

* `Matches key value rest s`: a pair starts `s`, and `rest` stands behind it. `First` singles out
  the one that counts.
* `Divides s d`: the pairs of `d` and the gaps between them are those of `s`. There is one such
  division of each text, and it is the one that is computed (`divides_iff`).
* `parse_gaps`: a pair starts behind a blank, or where the one before it ends. So the fields of the
  gaps are those of the text that is left when the pairs are taken out.
-/

namespace ThemeTemplates

set_option autoImplicit false

/-! ## Searches over characters -/

/-- A search for something that starts with a character has to look at the characters only. -/
theorem Bytes.nowhere_encode {p : Bytes → Prop} (hp : ∀ s, Utf8.char? s = none → ¬ p s)
    {cs : List Char} {s : Bytes} :
    Nowhere p (Utf8.encode cs) s ↔ ∀ ds, ds <:+ cs → ds ≠ [] → ¬ p (Utf8.encode ds ++ s) := by
  induction cs with
  | nil =>
    refine iff_of_true (Nowhere.nil p s) fun ds hd hne => ?_
    exact absurd (List.suffix_nil.1 hd) hne
  | cons c cs ih =>
    have h1 (z : Bytes) : Nowhere p (Utf8.encodeChar c) z ↔ ¬ p (Utf8.encodeChar c ++ z) := by
      refine ⟨fun h => h _ (List.suffix_refl _) (Utf8.encodeChar_ne_nil c), fun h v hv hne => ?_⟩
      obtain ⟨u, hu⟩ := hv
      by_cases hu0 : u = []
      · rwa [← List.nil_append v, ← hu0, hu]
      · exact hp _ (Utf8.char?_inside hu.symm hu0 hne z)
    rw [Utf8.encode_cons, nowhere_append, h1, ih, ← List.append_assoc, ← Utf8.encode_cons]
    constructor
    · rintro ⟨h2, h3⟩ ds hd hne
      rcases List.suffix_cons_iff.1 hd with rfl | hd'
      · exact h2
      · exact h3 ds hd' hne
    · intro h
      exact ⟨h _ (List.suffix_refl _) (List.cons_ne_nil c cs),
        fun ds hd => h ds (hd.trans (List.suffix_cons c cs))⟩

namespace Arguments

/-! ## The pattern -/

/-- A line of text up to a quote. -/
def Closes (value rest s : Bytes) : Prop :=
  ∃ (cs : List Char) (q : Quote), (∀ c ∈ cs, c ≠ '\n') ∧ value = Utf8.encode cs ∧
    s = value ++ q.byte :: rest

/-- What stands behind a key: an equals sign with blanks around it, and a value between quotes. -/
def Assigns (value rest s : Bytes) : Prop :=
  ∃ (before after : List Char) (q : Quote) (t : Bytes), (∀ c ∈ before, Text.isBlank c = true) ∧
    (∀ c ∈ after, Text.isBlank c = true) ∧
    s = Utf8.encode before ++ equals :: (Utf8.encode after ++ q.byte :: t) ∧ Closes value rest t

def Matches (key value rest s : Bytes) : Prop :=
  ∃ (cs : List Char) (t : Bytes), cs ≠ [] ∧ (∀ c ∈ cs, Text.isBlank c = false) ∧
    key = Utf8.encode cs ∧ s = key ++ t ∧ Assigns value rest t

/-- A pair starts the text. -/
def Starts (s : Bytes) : Prop := ∃ key value rest, Matches key value rest s

/-- Of the pairs that start a text, the one with the shortest key, and then the shortest value. The
blanks around the sign leave no choice. -/
structure First (key value rest s : Bytes) : Prop where
  found : Matches key value rest s
  key_le : ∀ {k v r}, Matches k v r s → key.length ≤ k.length
  value_le : ∀ {v r}, Matches key v r s → value.length ≤ v.length

/-- The pairs of a text from the left, each of them the first one behind its forerunner. -/
inductive Divides : Bytes → Division → Prop
  | last {s : Bytes} (h : Bytes.Nowhere Starts s []) : Divides s ⟨[], s⟩
  | pair {src gap s key value rest : Bytes} {d : Division} (e : src = gap ++ s)
      (h : Bytes.Nowhere Starts gap s) (hf : First key value rest s) (hd : Divides rest d) :
      Divides src ⟨⟨gap, key, value⟩ :: d.pairs, d.last⟩

/-! ## Values -/

theorem closes_of_value? {s value rest : Bytes} (h : value? s = some (value, rest)) :
    Closes value rest s ∧ ∀ b ∈ value, isQuote b = false := by
  fun_induction value? s generalizing value with
  | case1 => cases h
  | case2 b r hb =>
    cases h
    obtain ⟨q, rfl⟩ := isQuote_iff.1 hb
    exact ⟨⟨[], q, by simp, rfl, rfl⟩, by simp⟩
  | case3 => cases h
  | case4 => cases h
  | case5 b r hb c r' hc hn ih =>
    obtain ⟨⟨v, t⟩, h1, h2⟩ := Option.map_eq_some_iff.1 h
    cases h2
    obtain ⟨⟨cs, q, h3, rfl, h4⟩, h5⟩ := ih h1
    have e := Utf8.eq_of_char? hc
    refine ⟨⟨c :: cs, q, ?_, rfl, ?_⟩, ?_⟩
    · intro d hd
      rcases List.mem_cons.1 hd with rfl | hd
      · simpa using hn
      · exact h3 d hd
    · rw [e, h4, List.append_assoc]
    · intro x hx
      rcases List.mem_append.1 hx with hx | hx
      · rcases quote_or_not c with ⟨q', hq⟩ | hq
        · rw [hq] at e
          exact absurd ((List.cons.inj e).1 ▸ q'.isQuote_byte) hb
        · exact hq x hx
      · exact h5 x hx

/-- A text that has a value up to some quote has one up to the first. -/
theorem exists_value? {s value rest : Bytes} (h : Closes value rest s) : ∃ v r,
    value? s = some (v, r) ∧ v.length ≤ value.length ∧
      (v.length = value.length → v = value ∧ r = rest) := by
  obtain ⟨cs, q, hn, rfl, rfl⟩ := h
  induction cs with
  | nil => exact ⟨[], rest, value?_quote q rest, Nat.le_refl _, fun _ => ⟨rfl, rfl⟩⟩
  | cons c cs ih =>
    obtain ⟨v, r, h1, h2, h3⟩ := ih fun d hd => hn d (List.mem_cons_of_mem _ hd)
    rw [Utf8.encode_cons, List.append_assoc]
    rcases quote_or_not c with ⟨q', hq⟩ | hq
    · rw [hq]
      refine ⟨[], _, value?_quote q' _, Nat.zero_le _, fun h => ?_⟩
      simp at h
    · refine ⟨Utf8.encodeChar c ++ v, r, ?_, ?_, fun h => ?_⟩
      · rw [value?_char hq (hn c List.mem_cons_self), h1]
        rfl
      · rw [List.length_append, List.length_append]
        omega
      · rw [List.length_append, List.length_append] at h
        obtain ⟨rfl, rfl⟩ := h3 (by omega)
        exact ⟨rfl, rfl⟩

/-! ## Assignments -/

theorem assigns_of_assigned? {s value rest : Bytes} (h : assigned? s = some (value, rest)) :
    Assigns value rest s ∧ ∀ b ∈ value, isQuote b = false := by
  obtain ⟨before, hb, e⟩ := Text.exists_dropBlanks s
  unfold assigned? at h
  split at h
  next => cases h
  next x r h1 =>
    obtain ⟨after, ha, e1⟩ := Text.exists_dropBlanks r
    split at h
    next hx =>
      split at h
      next => cases h
      next y t h2 =>
        split at h
        next hy =>
          obtain rfl := beq_iff_eq.1 hx
          obtain ⟨q, rfl⟩ := isQuote_iff.1 hy
          obtain ⟨h3, h4⟩ := closes_of_value? h
          refine ⟨⟨before, after, q, t, hb, ha, ?_, h3⟩, h4⟩
          rw [← h2, ← e1, ← h1, ← e]
        next => cases h
    next => cases h

theorem exists_assigned? {s value rest : Bytes} (h : Assigns value rest s) : ∃ v r,
    assigned? s = some (v, r) ∧ v.length ≤ value.length ∧
      (v.length = value.length → v = value ∧ r = rest) := by
  obtain ⟨before, after, q, t, hb, ha, rfl, h1⟩ := h
  rw [assigned?_encode hb ha]
  exact exists_value? h1

theorem not_assigns {s : Bytes} (h : assigned? s = none) (value rest : Bytes) :
    ¬ Assigns value rest s := by
  intro h1
  obtain ⟨v, r, h2, -⟩ := exists_assigned? h1
  rw [h] at h2
  cases h2

/-! ## One text, one division -/

/-- The pair that counts is the one that is read behind its key. -/
theorem First.exists_assigned? {key value rest s : Bytes} (h : First key value rest s) :
    ∃ t, s = key ++ t ∧ assigned? t = some (value, rest) := by
  obtain ⟨cs, t, h1, h2, h3, rfl, h4⟩ := h.found
  refine ⟨t, rfl, ?_⟩
  obtain ⟨v, r, h5, h6, h7⟩ := Arguments.exists_assigned? h4
  have h8 := h.value_le ⟨cs, t, h1, h2, h3, rfl, (assigns_of_assigned? h5).1⟩
  obtain ⟨rfl, rfl⟩ := h7 (Nat.le_antisymm h6 h8)
  exact h5

theorem First.unique {key value rest key' value' rest' s : Bytes} (h : First key value rest s)
    (h' : First key' value' rest' s) : key = key' ∧ value = value' ∧ rest = rest' := by
  obtain ⟨t, rfl, h1⟩ := h.exists_assigned?
  obtain ⟨t', e, h1'⟩ := h'.exists_assigned?
  obtain ⟨rfl, rfl⟩ := List.append_inj e
    (Nat.le_antisymm (h.key_le h'.found) (h'.key_le h.found))
  rw [h1, Option.some.injEq, Prod.mk.injEq] at h1'
  exact ⟨rfl, h1'⟩

theorem First.starts {key value rest s : Bytes} (h : First key value rest s) : Starts s :=
  ⟨key, value, rest, h.found⟩

theorem exists_char_of_starts {s : Bytes} (h : Starts s) :
    ∃ c r, Utf8.char? s = some (c, r) ∧ Text.isBlank c = false := by
  obtain ⟨key, value, rest, cs, t, hne, hb, rfl, rfl, -⟩ := h
  obtain ⟨c, cs, rfl⟩ := List.exists_cons_of_ne_nil hne
  refine ⟨c, Utf8.encode cs ++ t, ?_, hb c List.mem_cons_self⟩
  rw [Utf8.encode_cons, List.append_assoc, Utf8.char?_encodeChar_append]

theorem not_starts_of_char? (s : Bytes) (h : Utf8.char? s = none) : ¬ Starts s := by
  intro h1
  obtain ⟨c, r, h2, -⟩ := exists_char_of_starts h1
  rw [h] at h2
  cases h2

/-- The first pair of a text has one place. -/
theorem gap_unique {gap s gap' s' : Bytes} (e : gap ++ s = gap' ++ s')
    (h : Bytes.Nowhere Starts gap s) (hs : Starts s) (h' : Bytes.Nowhere Starts gap' s')
    (hs' : Starts s') : gap = gap' ∧ s = s' := by
  rcases List.append_eq_append_iff.1 e with ⟨u, rfl, rfl⟩ | ⟨u, rfl, rfl⟩
  · by_cases hu : u = []
    · subst hu
      exact ⟨(List.append_nil gap).symm, rfl⟩
    · exact absurd hs (h' u (List.suffix_append gap u) hu)
  · by_cases hu : u = []
    · subst hu
      exact ⟨List.append_nil gap', rfl⟩
    · exact absurd hs' (h u (List.suffix_append gap' u) hu)

theorem not_nowhere {gap s : Bytes} (hs : Starts s) : ¬ Bytes.Nowhere Starts (gap ++ s) [] := by
  intro h
  have hne : s ≠ [] := fun h0 => not_starts_of_char? [] Utf8.char?_nil (h0 ▸ hs)
  have h1 := h s (List.suffix_append gap s) hne
  rw [List.append_nil] at h1
  exact h1 hs

theorem Divides.unique {s : Bytes} {d d' : Division} (h : Divides s d) (h' : Divides s d') :
    d = d' := by
  induction h generalizing d' with
  | @last s h =>
    cases h' with
    | last _ => rfl
    | pair e _ hf _ =>
      subst e
      exact absurd h (not_nowhere hf.starts)
  | @pair src gap s key value rest d e h hf hd ih =>
    cases h' with
    | last h' =>
      subst e
      exact absurd h' (not_nowhere hf.starts)
    | @pair _ gap' s' key' value' rest' d' e' h' hf' hd' =>
      obtain ⟨rfl, rfl⟩ := gap_unique (e.symm.trans e') h hf.starts h' hf'.starts
      obtain ⟨rfl, rfl, rfl⟩ := hf.unique hf'
      rw [ih hd']

/-! ## The division that is computed -/

/-- Characters of which a key may consist, and the key of no pair ends inside them. -/
structure Tried (cs : List Char) (s : Bytes) : Prop where
  solid : ∀ c ∈ cs, Text.isBlank c = false
  unassigned : ∀ ks ts, cs = ks ++ ts → ks ≠ [] → ts ≠ [] → assigned? (Utf8.encode ts ++ s) = none

theorem tried_nil (s : Bytes) : Tried [] s :=
  ⟨by simp, fun _ _ e hk => absurd (List.append_eq_nil_iff.1 e.symm).1 hk⟩

theorem pairEnd?_encode {cs : List Char} (h : cs ≠ []) (s : Bytes) :
    pairEnd? (Utf8.encode cs) s = assigned? s := by
  obtain ⟨c, cs, rfl⟩ := List.exists_cons_of_ne_nil h
  refine if_neg ?_
  simp [Utf8.encode_cons, Utf8.encodeChar_ne_nil]

/-- A run goes on with a character if no key ends before it. -/
theorem Tried.concat {cs : List Char} {c : Char} {s : Bytes}
    (h : Tried cs (Utf8.encodeChar c ++ s)) (hc : Text.isBlank c = false)
    (hn : cs ≠ [] → assigned? (Utf8.encodeChar c ++ s) = none) : Tried (cs ++ [c]) s := by
  refine ⟨?_, fun ks ts e hk ht => ?_⟩
  · intro d hd
    rcases List.mem_append.1 hd with hd | hd
    · exact h.solid d hd
    · rw [List.mem_singleton.1 hd]
      exact hc
  · rcases List.eq_nil_or_concat ts with rfl | ⟨us, x, rfl⟩
    · exact absurd rfl ht
    · rw [List.concat_eq_append, ← List.append_assoc] at e
      obtain ⟨rfl, hx⟩ := List.append_inj' e rfl
      rw [← (List.cons.inj hx).1, List.concat_eq_append, Utf8.encode_append, Utf8.encode_cons,
        Utf8.encode_nil, List.append_nil, List.append_assoc]
      by_cases hu : us = []
      · subst hu
        exact hn (by simpa using hk)
      · exact h.unassigned ks us rfl hk hu

/-- No pair starts inside a run that was tried to its end. -/
theorem Tried.nowhere {cs : List Char} {s : Bytes} (h : Tried cs s)
    (hs : cs ≠ [] → assigned? s = none)
    (he : ∀ c t, Utf8.char? s = some (c, t) → Text.isBlank c = true) :
    Bytes.Nowhere Starts (Utf8.encode cs) s := by
  rw [Bytes.nowhere_encode not_starts_of_char?]
  rintro ds ⟨us, rfl⟩ hne ⟨key, value, rest, ks, t, hk, hb, rfl, e, ha⟩
  have hs' : assigned? s = none := hs (by simp [hne])
  rcases Utf8.prefix_or_prefix e with ⟨es, rfl, e1⟩ | ⟨es, rfl, rfl⟩
  · cases es with
    | nil =>
      obtain rfl : s = t := e1
      exact not_assigns hs' _ _ ha
    | cons c es =>
      have h1 := he c (Utf8.encode es ++ t)
        (by rw [e1, Utf8.encode_cons, List.append_assoc, Utf8.char?_encodeChar_append])
      rw [hb c (by simp)] at h1
      cases h1
  · by_cases h0 : es = []
    · subst h0
      exact not_assigns hs' _ _ ha
    · refine not_assigns (h.unassigned (us ++ ks) es ?_ ?_ h0) _ _ ha
      · rw [List.append_assoc]
      · simp [hk]

/-- The first key that is followed by a value makes the pair that counts. -/
theorem Tried.first {cs : List Char} {s value rest : Bytes} (h : Tried cs s) (hc : cs ≠ [])
    (hs : assigned? s = some (value, rest)) : First (Utf8.encode cs) value rest (Utf8.encode cs ++ s)
    where
  found := ⟨cs, s, hc, h.solid, rfl, rfl, (assigns_of_assigned? hs).1⟩
  key_le := by
    rintro k v r ⟨ks, t, hk, -, rfl, e, ha⟩
    rcases Utf8.prefix_or_prefix e with ⟨es, rfl, -⟩ | ⟨es, rfl, rfl⟩
    · rw [Utf8.encode_append, List.length_append]
      exact Nat.le_add_right _ _
    · by_cases h0 : es = []
      · rw [h0, List.append_nil]
      · exact absurd ha (not_assigns (h.unassigned ks es rfl hk h0) v r)
  value_le := by
    rintro v r ⟨ks, t, -, -, hk, e, ha⟩
    obtain rfl := List.append_cancel_left e
    obtain ⟨v', r', h1, h2, -⟩ := exists_assigned? ha
    rw [hs] at h1
    cases h1
    exact h2

theorem Divides.addGap {gap s : Bytes} {d : Division} (h : Divides s d)
    (hg : Bytes.Nowhere Starts gap s) : Divides (gap ++ s) (d.addGap gap) := by
  cases h with
  | last h => exact .last (Bytes.nowhere_append.2 ⟨by rwa [List.append_nil], h⟩)
  | pair e h hf hd =>
    subst e
    exact .pair (List.append_assoc _ _ _).symm (Bytes.nowhere_append.2 ⟨hg, h⟩) hf hd

theorem nowhere_blank {c : Char} (hc : Text.isBlank c = true) (s : Bytes) :
    Bytes.Nowhere Starts (Utf8.encodeChar c) s := by
  have e : Utf8.encode [c] = Utf8.encodeChar c := by simp [Utf8.encode]
  rw [← e, Bytes.nowhere_encode not_starts_of_char?]
  rintro ds hd hne h
  obtain rfl : ds = [c] := by
    rcases List.suffix_cons_iff.1 hd with rfl | hd
    · rfl
    · exact absurd (List.suffix_nil.1 hd) hne
  obtain ⟨x, r, h1, h2⟩ := exists_char_of_starts h
  rw [e, Utf8.char?_encodeChar_append] at h1
  cases h1
  rw [hc] at h2
  cases h2

/-- A search that has read a run in which no key ends goes on to the division of the whole text. -/
theorem Tried.divides {run s : Bytes} {cs : List Char} (h : Tried cs s)
    (hr : run = Utf8.encode cs) : Divides (run ++ s) (divide run s) := by
  fun_induction divide run s generalizing cs with
  | case1 run s value rest hp ih =>
    subst hr
    have hne : cs ≠ [] := by
      rintro rfl
      simp [pairEnd?, Utf8.encode_nil] at hp
    rw [pairEnd?_encode hne] at hp
    exact .pair rfl (Bytes.Nowhere.nil Starts _) (h.first hne hp) (ih (tried_nil rest) rfl)
  | case2 run s hp c r hc hb ih =>
    subst hr
    have hn : cs ≠ [] → assigned? s = none := fun hne => by rwa [pairEnd?_encode hne] at hp
    have h1 : Bytes.Nowhere Starts (Utf8.encode cs) s := h.nowhere hn fun d t hd => by
      rw [hc] at hd
      cases hd
      exact hb
    obtain rfl := Utf8.eq_of_char? hc
    rw [← List.append_assoc]
    exact (ih (tried_nil r) rfl).addGap (Bytes.nowhere_append.2 ⟨h1, nowhere_blank hb r⟩)
  | case3 run s hp c r hc hb ih =>
    subst hr
    have hn : cs ≠ [] → assigned? s = none := fun hne => by rwa [pairEnd?_encode hne] at hp
    obtain rfl := Utf8.eq_of_char? hc
    rw [← List.append_assoc]
    exact ih (h.concat (by simpa using hb) hn) (by simp [Utf8.encode])
  | case4 run hp hc =>
    subst hr
    have hn : cs ≠ [] → assigned? [] = none := fun _ => unassigned_nil.assigned?
    rw [List.append_nil]
    exact .last (h.nowhere hn fun d t hd => by rw [hc] at hd; cases hd)
  | case5 run s hp hc hne ih =>
    subst hr
    have hn : cs ≠ [] → assigned? s = none := fun hne => by rwa [pairEnd?_encode hne] at hp
    have h1 : Bytes.Nowhere Starts (Utf8.encode cs) s := h.nowhere hn fun d t hd => by
      rw [hc] at hd
      cases hd
    obtain ⟨b, r, rfl⟩ := List.exists_cons_of_ne_nil hne
    rw [List.append_cons]
    refine (ih (tried_nil r) rfl).addGap (Bytes.nowhere_append.2 ⟨h1, ?_⟩)
    exact Bytes.nowhere_cons.2 ⟨not_starts_of_char? _ hc, Bytes.Nowhere.nil Starts r⟩

theorem divides_iff {s : Bytes} {d : Division} : Divides s d ↔ d = division s := by
  have h : Divides s (division s) := (tried_nil s).divides rfl
  refine ⟨fun h1 => h1.unique h, ?_⟩
  rintro rfl
  exact h

/-! ## Gaps and fields -/

/-- Besides its key a pair takes an equals sign and two quotes. -/
theorem First.length_le {key value rest s : Bytes} (h : First key value rest s) :
    rest.length + 4 ≤ s.length := by
  obtain ⟨cs, t, hc, -, rfl, rfl, before, after, q, u, -, -, rfl, vs, q', -, rfl, rfl⟩ := h.found
  obtain ⟨c, cs, rfl⟩ := List.exists_cons_of_ne_nil hc
  have h1 := List.length_pos_iff.2 (Utf8.encodeChar_ne_nil c)
  simp only [Utf8.encode_cons, List.length_append, List.length_cons]
  omega

theorem First.suffix {key value rest s : Bytes} (h : First key value rest s) : rest <:+ s := by
  obtain ⟨cs, t, -, -, rfl, rfl, before, after, q, u, -, -, rfl, vs, q', -, rfl, rfl⟩ := h.found
  refine ⟨Utf8.encode cs ++ (Utf8.encode before ++ equals ::
    (Utf8.encode after ++ q.byte :: (Utf8.encode vs ++ [q'.byte]))), ?_⟩
  simp

theorem Divides.exists_first {s : Bytes} {d : Division} (h : Divides s d) : ∀ p ∈ d.pairs,
    ∃ t rest, First p.key p.value rest t := by
  induction h with
  | last => simp
  | @pair src gap s key value rest d e h hf hd ih =>
    intro p hp
    rcases List.mem_cons.1 hp with rfl | hp
    · exact ⟨s, rest, hf⟩
    · exact ih p hp

/-- The value of a pair that counts ends at the first quote of its text. -/
theorem First.value_not_quote {key value rest s : Bytes} (h : First key value rest s) :
    ∀ b ∈ value, isQuote b = false := by
  obtain ⟨t, -, h1⟩ := h.exists_assigned?
  exact (assigns_of_assigned? h1).2

theorem Divides.exists_chars {s : Bytes} {d : Division} (h : Divides s d) : ∀ p ∈ d.pairs,
    ∃ (ks : List Char) (v : Assigned), ks ≠ [] ∧ (∀ c ∈ ks, Text.isBlank c = false) ∧
      p.key = Utf8.encode ks ∧ p.value = v.bytes := by
  intro p hp
  obtain ⟨t, rest, hf⟩ := h.exists_first p hp
  have hq := hf.value_not_quote
  obtain ⟨ks, u, h1, h2, h3, -, before, after, q, w, -, -, -, vs, q', h4, h5, -⟩ := hf.found
  have h6 : ∀ q : Quote, Utf8.asciiChar q.byte ∉ vs := by
    intro q hc
    have h7 := hq q.byte (h5 ▸ (Utf8.mem_encode_iff (by cases q <;> decide)).2 hc)
    rw [q.isQuote_byte] at h7
    cases h7
  refine ⟨ks, ⟨vs, fun c hc => ⟨h4 c hc, ?_, ?_⟩⟩, h1, h2, h3, h5⟩
  · rintro rfl
    exact h6 .double hc
  · rintro rfl
    exact h6 .single hc

theorem Divides.token_eq {s : Bytes} {d : Division} (h : Divides s d) :
    ∀ p ∈ d.pairs, p.token = p.key ++ equals :: p.value := by
  intro p hp
  obtain ⟨t, rest, hf⟩ := h.exists_first p hp
  exact token_of_not_quote hf.value_not_quote

/-- A key would take in the character before it, were that no blank. -/
theorem isBlank_getLast?_gap {gap s : Bytes} (ha : ∀ b ∈ gap, b.toNat < 0x80 ∧ b ≠ 0x0B)
    (hg : Bytes.Nowhere Starts gap s) (hs : Starts s) :
    ∀ b ∈ gap.getLast?, Bytes.isBlank b = true := by
  intro b hb
  obtain ⟨u, rfl⟩ := List.getLast?_eq_some_iff.1 hb
  obtain ⟨h1, h2⟩ := ha b (by simp)
  by_contra hn
  have hc : Text.isBlank (Utf8.asciiChar b) = false := by
    rw [Bool.eq_false_iff]
    intro hc
    rcases (Text.isBlank_ofNat_iff b.toNat h1).1 hc with h3 | h3
    · rw [UInt8.ofNat_toNat] at h3
      exact hn h3
    · exact h2 (UInt8.toNat_inj.1 h3)
  obtain ⟨key, value, rest, cs, t, hk, hcs, rfl, rfl, h3⟩ := hs
  refine hg [b] (List.suffix_append u [b]) (List.cons_ne_nil b []) ?_
  refine ⟨_, value, rest, Utf8.asciiChar b :: cs, t, List.cons_ne_nil _ _, ?_, rfl, ?_, h3⟩
  · intro c hc'
    rcases List.mem_cons.1 hc' with rfl | hc'
    · exact hc
    · exact hcs c hc'
  · rw [Utf8.encode_cons, Utf8.encodeChar_asciiChar h1, List.append_assoc]

/-- The text before the pairs, between them and behind them. -/
def Division.gaps (d : Division) : List Bytes := d.pairs.map Pair.gap ++ [d.last]

def Division.words (d : Division) : List Bytes :=
  d.gaps.flatMap fun gap => (Bytes.fields gap).map unquote

theorem Divides.fields_rest {s : Bytes} {d : Division} (h : Divides s d)
    (ha : ∀ b ∈ s, b.toNat < 0x80 ∧ b ≠ 0x0B) :
    Bytes.fields d.rest = d.gaps.flatMap Bytes.fields := by
  induction h with
  | last => simp [Division.rest, Division.gaps]
  | @pair src gap s key value rest d e h hf hd ih =>
    subst e
    have h1 : Bytes.fields (gap ++ d.rest) = Bytes.fields gap ++ Bytes.fields d.rest :=
      Bytes.fields_append_of_getLast? (isBlank_getLast?_gap
        (fun b hb => ha b (List.mem_append_left s hb)) h hf.starts) d.rest
    have h2 := ih fun b hb => ha b (List.mem_append_right gap (hf.suffix.subset hb))
    rw [Division.rest, List.map_cons, List.flatten_cons, List.append_assoc, ← Division.rest, h1, h2]
    rfl

/-- To take the pairs out of a text neither joins its fields nor breaks them: those of the gaps are
left, one gap after another. The vertical tab is barred because it ends a key but no field. -/
theorem parse_gaps {src : Bytes} (h : ∀ b ∈ src, b.toNat < 0x80 ∧ b ≠ 0x0B) :
    ∃ d, (∀ d', Divides src d' ↔ d' = d) ∧
      parse src =
        { name := d.words.headD []
          positional := d.words.tail
          named := d.pairs.map fun p => p.key ++ equals :: p.value } := by
  have hd : Divides src (division src) := divides_iff.2 rfl
  have hw : (Bytes.fields (division src).rest).map unquote = (division src).words := by
    rw [hd.fields_rest h, List.map_flatMap, Division.words]
  have ht : (division src).pairs.map Pair.token =
      (division src).pairs.map fun p => p.key ++ equals :: p.value :=
    List.map_congr_left hd.token_eq
  refine ⟨division src, fun d' => divides_iff, ?_⟩
  rw [parse_eq, hw, ht]

/-- No blank stands between the first two pairs, the third has two signs in its key, and the quotes
of the last field are not those of a pair. -/
theorem parse_gaps_adjacent : ∃ (src : Bytes) (d : Division),
    src = Utf8.ofString "x=\x221'y='2\x22 asset a==b = 'c' \x22q=\x22 z" ∧
    (∀ b ∈ src, b.toNat < 0x80 ∧ b ≠ 0x0B) ∧
    (∀ d', Divides src d' ↔ d' = d) ∧
    d.gaps = [[], [], Utf8.ofString " asset ", Utf8.ofString " \x22q=\x22 z"] ∧
    parse src = ⟨Utf8.ofString "asset", [Utf8.ofString "q=", Utf8.ofString "z"],
      [Utf8.ofString "x=1", Utf8.ofString "y=2", Utf8.ofString "a==b=c"]⟩ := by
  let src := Utf8.ofString "x=\x221'y='2\x22 asset a==b = 'c' \x22q=\x22 z"
  have hs : ∀ b ∈ src, b.toNat < 0x80 ∧ b ≠ 0x0B := by decide +kernel
  obtain ⟨d, h1, h2⟩ := parse_gaps hs
  obtain rfl := (h1 (division src)).1 (divides_iff.2 rfl)
  refine ⟨src, division src, rfl, hs, h1, by decide +kernel, h2.trans ?_⟩
  decide +kernel

end Arguments

end ThemeTemplates
