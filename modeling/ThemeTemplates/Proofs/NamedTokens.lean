import ThemeTemplates.Proofs.PairMatches
import ThemeTemplates.Proofs.QuotedValue

/-! # The tokens of named pairs

A pair becomes a token of its key, an equals sign and its value. If the end of a token is quoted, the
last quote and the first one before it go. The value of a pair ends at the first quote behind the one
that opens it, so the end of its token is never quoted, whatever quotes the key holds.

* `Quoted lead inner token`: `token` is a line that ends with `inner` between quotes, behind `lead`.
  `joinPair_cases`: the first such quote goes, and a token without a quoted end stays as it is.
* `parse_tokens`: what the named tokens of a text look like.
-/

namespace ThemeTemplates.Arguments

set_option autoImplicit false

/-! ## Lines -/

theorem isLine_char (c : Char) (s : Bytes) :
    isLine (Utf8.encodeChar c ++ s) = (c != '\n' && isLine s) := by
  rw [isLine]
  split
  next h =>
    rw [Utf8.char?_encodeChar_append] at h
    cases h
  next c' r h =>
    rw [Utf8.char?_encodeChar_append] at h
    cases h
    rfl

theorem isLine_encode (cs : List Char) : isLine (Utf8.encode cs) = cs.all (· != '\n') := by
  induction cs with
  | nil => decide +kernel
  | cons c cs ih => rw [Utf8.encode_cons, isLine_char, ih, List.all_cons]

theorem exists_encode_of_isLine {s : Bytes} (h : isLine s = true) : ∃ cs, s = Utf8.encode cs := by
  fun_induction isLine s with
  | case1 s hc => exact ⟨[], List.isEmpty_iff.1 h⟩
  | case2 s c r hc ih =>
    obtain ⟨cs, rfl⟩ := ih (Bool.and_eq_true_iff.1 h).2
    exact ⟨c :: cs, Utf8.eq_of_char? hc⟩

/-! ## Tokens with a quoted end -/

/-- A line that ends with text between quotes. -/
def Quoted (lead inner token : Bytes) : Prop :=
  ∃ (cs ds : List Char) (q q' : Quote), (∀ c ∈ cs, c ≠ '\n') ∧ (∀ c ∈ ds, c ≠ '\n') ∧ ds ≠ [] ∧
    lead = Utf8.encode cs ∧ inner = Utf8.encode ds ∧
    token = lead ++ q.byte :: (inner ++ [q'.byte])

/-- Of the quotes that may open the quoted end, the first one counts. -/
structure FirstQuoted (lead inner token : Bytes) : Prop where
  found : Quoted lead inner token
  lead_le : ∀ {l i}, Quoted l i token → lead.length ≤ l.length

theorem quoted_iff {lead inner token : Bytes} : Quoted lead inner token ↔
    isLine token = true ∧ inner ≠ [] ∧
      ∃ q q' : Quote, token = lead ++ q.byte :: (inner ++ [q'.byte]) := by
  have hb (q : Quote) : q.byte.toNat < 0x80 := by cases q <;> decide
  have hn (q : Quote) : (q.char != '\n') = true := by cases q <;> decide
  constructor
  · rintro ⟨cs, ds, q, q', h1, h2, h3, rfl, rfl, rfl⟩
    have e : Utf8.encode cs ++ q.byte :: (Utf8.encode ds ++ [q'.byte]) =
        Utf8.encode (cs ++ q.char :: (ds ++ [q'.char])) := by
      simp [encodeChar_char]
    refine ⟨?_, fun h => h3 (Utf8.encode_injective h), q, q', rfl⟩
    rw [e, isLine_encode]
    simpa [hn] using ⟨h1, h2⟩
  · rintro ⟨h1, h2, q, q', rfl⟩
    obtain ⟨es, he⟩ := exists_encode_of_isLine h1
    obtain ⟨cs, rs, rfl, rfl, hr⟩ := Utf8.exists_of_encode_eq (hb q) he.symm
    obtain ⟨ds, ts, rfl, rfl, -⟩ := Utf8.exists_of_encode_eq (hb q') hr.symm
    rw [he, isLine_encode] at h1
    simp only [List.all_append, List.all_cons, Bool.and_eq_true, List.all_eq_true,
      bne_iff_ne] at h1
    refine ⟨cs, ds, q, q', h1.1, h1.2.2.1, ?_, rfl, rfl, rfl⟩
    rintro rfl
    exact h2 rfl

/-- Behind the first quote of a token with a quoted end, some text and the last quote follow. -/
theorem Quoted.exists_behind {lead inner a r : Bytes} {x : UInt8}
    (h : Quoted lead inner (a ++ x :: r)) (ha : ∀ b ∈ a, isQuote b = false) :
    a.length ≤ lead.length ∧ ∃ (w : Bytes) (q : Quote), w ≠ [] ∧ r = w ++ [q.byte] := by
  obtain ⟨-, h1, q, q', e⟩ := quoted_iff.1 h
  rcases List.append_eq_append_iff.1 e with ⟨u, rfl, e1⟩ | ⟨u, rfl, e1⟩
  · refine ⟨by simp, ?_⟩
    cases u with
    | nil =>
      obtain ⟨-, rfl⟩ := List.cons.inj e1
      exact ⟨inner, q', h1, rfl⟩
    | cons y u =>
      obtain ⟨-, rfl⟩ := List.cons.inj e1
      exact ⟨u ++ q.byte :: inner, q', by simp, by simp⟩
  · cases u with
    | nil =>
      obtain ⟨-, rfl⟩ := List.cons.inj e1
      exact ⟨by simp, inner, q', h1, rfl⟩
    | cons y u =>
      -- the quote would stand before the first one
      obtain ⟨rfl, -⟩ := List.cons.inj e1
      have h2 := ha q.byte (by simp)
      rw [q.isQuote_byte] at h2
      cases h2

theorem joinPair_cases (token : Bytes) :
    (∃ lead inner, FirstQuoted lead inner token ∧ joinPair token = lead ++ inner) ∨
      (∀ lead inner, ¬ Quoted lead inner token) ∧ joinPair token = token := by
  have ht : token.takeWhile (fun b => !isQuote b) ++ token.dropWhile (fun b => !isQuote b) = token :=
    List.takeWhile_append_dropWhile
  have ha : ∀ b ∈ token.takeWhile (fun b => !isQuote b), isQuote b = false := by
    intro b hb
    simpa using List.mem_takeWhile_imp hb
  unfold joinPair
  cases hd : token.dropWhile fun b => !isQuote b with
  | nil =>
    right
    refine ⟨fun lead inner h => ?_, rfl⟩
    obtain ⟨-, -, q, q', rfl⟩ := quoted_iff.1 h
    have h1 := List.dropWhile_eq_nil_iff.1 hd q.byte (by simp)
    simp [q.isQuote_byte] at h1
  | cons x r =>
    rw [hd] at ht
    have hx : isQuote x = true := by
      have h1 := List.head?_dropWhile_not (fun b => !isQuote b) token
      rw [hd] at h1
      simpa using h1
    obtain ⟨q, rfl⟩ := isQuote_iff.1 hx
    generalize token.takeWhile (fun b => !isQuote b) = a at ht ha ⊢
    subst ht
    by_cases h : ∃ lead inner, Quoted lead inner (a ++ q.byte :: r)
    · obtain ⟨lead, inner, h⟩ := h
      obtain ⟨-, w, q', hw, rfl⟩ := h.exists_behind ha
      have hl := (quoted_iff.1 h).1
      left
      refine ⟨a, w, ⟨quoted_iff.2 ⟨hl, hw, q, q', rfl⟩, fun h' => (h'.exists_behind ha).1⟩, ?_⟩
      simp only [hl, List.dropLast_concat, List.getLast?_concat, Option.map_some, q'.isQuote_byte]
      simp [hw]
    · right
      refine ⟨fun lead inner h' => h ⟨lead, inner, h'⟩, if_neg fun hc => h ?_⟩
      simp only [Bool.and_eq_true, bne_iff_ne, beq_iff_eq, Option.map_eq_some_iff] at hc
      obtain ⟨⟨hl, hw⟩, b, hb, hq⟩ := hc
      obtain ⟨q', rfl⟩ := isQuote_iff.1 hq
      obtain ⟨w, rfl⟩ := List.getLast?_eq_some_iff.1 hb
      rw [List.dropLast_concat] at hw
      exact ⟨a, w, quoted_iff.2 ⟨hl, hw, q, q', rfl⟩⟩

example : joinPair (Utf8.ofString "key='v'") = Utf8.ofString "key=v" := by decide +kernel

/-! ## The tokens of a text -/

theorem not_quoted {key value : Bytes} (h : ∀ b ∈ value, isQuote b = false) (lead inner : Bytes) :
    ¬ Quoted lead inner (key ++ equals :: value) := by
  intro h1
  obtain ⟨-, -, q, q', e⟩ := quoted_iff.1 h1
  have h2 : (key ++ equals :: value).getLast? = some q'.byte := by
    rw [e, ← List.cons_append, ← List.append_assoc, List.getLast?_concat]
  have h3 := not_quote_getLast? h q'.byte h2
  rw [q'.isQuote_byte] at h3
  cases h3

/-- A named token is a key without blanks, an equals sign and a line without quotes. It is written
from its pair as it is, for there is no quoted end in it. -/
theorem parse_tokens (src : Bytes) :
    ∃ d, (∀ d', Divides src d' ↔ d' = d) ∧
      (parse src).named = d.pairs.map (fun p => p.key ++ equals :: p.value) ∧
      ∀ p ∈ d.pairs,
        (∃ ks : List Char, ks ≠ [] ∧ (∀ c ∈ ks, Text.isBlank c = false) ∧ p.key = Utf8.encode ks) ∧
        (∃ vs : List Char, (∀ c ∈ vs, c ≠ '\n' ∧ c ≠ '\x22' ∧ c ≠ '\x27') ∧
          p.value = Utf8.encode vs) ∧
        (∀ lead inner, ¬ Quoted lead inner (p.key ++ equals :: p.value)) ∧
        joinPair (p.key ++ equals :: p.value) = p.key ++ equals :: p.value := by
  have hd : Divides src (division src) := divides_iff.2 rfl
  refine ⟨division src, fun d' => divides_iff, ?_, fun p hp => ?_⟩
  · rw [parse_eq]
    exact List.map_congr_left hd.token_eq
  · obtain ⟨ks, v, h1, h2, h3, h4⟩ := hd.exists_chars p hp
    have h5 : ∀ lead inner, ¬ Quoted lead inner (p.key ++ equals :: p.value) :=
      not_quoted (h4 ▸ v.not_quote)
    refine ⟨⟨ks, h1, h2, h3⟩, ⟨v.chars, v.plain, h4⟩, h5, ?_⟩
    rcases joinPair_cases (p.key ++ equals :: p.value) with ⟨lead, inner, h6, -⟩ | ⟨-, h6⟩
    · exact absurd h6.found (h5 lead inner)
    · exact h6

/-- The first key holds a quote, and the second value is empty. -/
theorem parse_tokens_quotes :
    let src := Utf8.ofString "h a\x22b = 'c d' e=\x22\x22 f'"
    ∃ d p, (∀ d', Divides src d' ↔ d' = d) ∧ p ∈ d.pairs ∧ p.key = Utf8.ofString "a\x22b" ∧
      p.value = Utf8.ofString "c d" ∧
      (∀ lead inner, ¬ Quoted lead inner (p.key ++ equals :: p.value)) ∧
      joinPair (p.key ++ equals :: p.value) = p.key ++ equals :: p.value ∧
      (parse src).named = [Utf8.ofString "a\x22b=c d", Utf8.ofString "e="] := by
  intro src
  obtain ⟨d, h1, h2, h3⟩ := parse_tokens src
  obtain rfl := (h1 (division src)).1 (divides_iff.2 rfl)
  let p : Pair := ⟨Utf8.ofString "h ", Utf8.ofString "a\x22b", Utf8.ofString "c d"⟩
  have hp : p ∈ (division src).pairs := by decide +kernel
  obtain ⟨-, -, h4, h5⟩ := h3 p hp
  exact ⟨division src, p, h1, hp, rfl, rfl, h4, h5, by decide +kernel⟩

end ThemeTemplates.Arguments
