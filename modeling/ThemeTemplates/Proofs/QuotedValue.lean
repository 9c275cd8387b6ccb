import ThemeTemplates.Proofs.ArgumentItems

/-! # Where a value ends

The value of a pair stands between two quotes of one sort, and may hold quotes of the other sort.
Yet it is read up to the first quote of either sort only. What stands behind that one, and the quote
that was to end the value, is read as text of its own.

* `Enclosed q`: a value between two quotes `q`. `Enclosed.kept` is the part of it that is read,
  `Enclosed.lost` the text that is left over.
* `parse_enclosed`: the value comes back as it was written just when it holds no quotes at all.
-/

namespace ThemeTemplates.Arguments

set_option autoImplicit false

/-! ## Values between quotes -/

def Quote.char : Quote → Char
  | single => '\x27'
  | double => '\x22'

def Quote.other : Quote → Quote
  | single => double
  | double => single

/-- A value in a line that holds no quote of the sort that encloses it. -/
structure Enclosed (q : Quote) where
  chars : List Char
  plain : ∀ c ∈ chars, c ≠ '\n' ∧ c ≠ q.char

namespace Enclosed

variable {q : Quote}

def bytes (v : Enclosed q) : Bytes := Utf8.encode v.chars

/-- A key with this value, as a pair is written. -/
def assignment (k : Key) (v : Enclosed q) : Bytes :=
  k.bytes ++ equals :: q.byte :: (v.bytes ++ [q.byte])

/-- The value up to the first quote. -/
def kept (v : Enclosed q) : List Char := v.chars.takeWhile fun c => c != q.other.char

/-- What stands behind the first quote. -/
def lost (v : Enclosed q) : Bytes :=
  match v.chars.dropWhile fun c => c != q.other.char with
  | [] => []
  | _ :: rest => Utf8.encode rest ++ [q.byte]

end Enclosed

/-! ## What a text holds -/

/-- The name and the positional arguments of a text. -/
def words (s : Bytes) : List Bytes := (Bytes.fields (division s).rest).map unquote

/-- The named arguments of a text. -/
def tokens (s : Bytes) : List Bytes := (division s).pairs.map Pair.token

theorem words_nil : words [] = [] := reads_nil.fields

theorem tokens_nil : tokens [] = [] := reads_nil.tokens

/-! ## Reading a value -/

theorem encodeChar_char (q : Quote) : Utf8.encodeChar q.char = [q.byte] := by cases q <;> rfl

theorem ne_quotes {q : Quote} {c : Char} (h : c ≠ q.char) (ho : c ≠ q.other.char) :
    c ≠ '\x22' ∧ c ≠ '\x27' := by
  cases q
  · exact ⟨ho, h⟩
  · exact ⟨h, ho⟩

namespace Enclosed

variable {q : Quote} (v : Enclosed q)

theorem mem_kept {c : Char} (h : c ∈ v.kept) : c ∈ v.chars ∧ c ≠ q.other.char :=
  ⟨(List.takeWhile_sublist _).mem h, by simpa using List.mem_takeWhile_imp h⟩

/-- The part that is kept holds no quote. -/
def prior : Assigned where
  chars := v.kept
  plain := fun c hc => by
    obtain ⟨h1, h2⟩ := v.mem_kept hc
    exact ⟨(v.plain c h1).1, ne_quotes (v.plain c h1).2 h2⟩

/-- A value is the part that is kept, a quote, and the text that is lost. -/
theorem exists_quote : ∃ q' : Quote,
    v.bytes ++ [q.byte] = v.prior.bytes ++ q'.byte :: v.lost := by
  have h1 : v.kept ++ v.chars.dropWhile (fun c => c != q.other.char) = v.chars :=
    List.takeWhile_append_dropWhile
  cases hd : v.chars.dropWhile fun c => c != q.other.char with
  | nil =>
    -- the quote that ends the value is the first one
    rw [hd, List.append_nil] at h1
    have h2 : v.lost = [] := by simp only [lost, hd]
    refine ⟨q, ?_⟩
    rw [h2, bytes, ← h1]
    rfl
  | cons c rest =>
    have hc : c = q.other.char := by
      have h2 := List.head?_dropWhile_not (fun c => c != q.other.char) v.chars
      rw [hd] at h2
      simpa using h2
    have h2 : v.lost = Utf8.encode rest ++ [q.byte] := by simp only [lost, hd]
    refine ⟨q.other, ?_⟩
    rw [h2, bytes, ← h1, hd, hc, Utf8.encode_append, Utf8.encode_cons, encodeChar_char,
      List.append_assoc]
    rfl

theorem reads_assignment (k : Key) : Reads (v.assignment k) (words v.lost)
    ((k.bytes ++ equals :: v.prior.bytes) :: tokens v.lost) := by
  obtain ⟨q', h⟩ := v.exists_quote
  have h1 := reads_pair k ⟨[], by decide⟩ ⟨[], by decide⟩ q q' v.prior v.lost
  rw [assignment, h]
  exact h1

theorem lost_of_not_mem (h : q.other.char ∉ v.chars) : v.kept = v.chars ∧ v.lost = [] := by
  have h1 : ∀ c ∈ v.chars, (c != q.other.char) = true := by
    intro c hc
    rw [bne_iff_ne]
    rintro rfl
    exact h hc
  refine ⟨List.takeWhile_eq_self_iff.2 h1, ?_⟩
  simp only [lost, List.dropWhile_eq_nil_iff.2 h1]

theorem token_eq_iff (k : Key) :
    k.bytes ++ equals :: v.prior.bytes = k.bytes ++ equals :: v.bytes ↔
      q.other.char ∉ v.chars := by
  constructor
  · intro h
    have h1 : v.kept = v.chars :=
      Utf8.encode_injective (List.cons.inj (List.append_cancel_left h)).2
    intro hm
    rw [← h1] at hm
    exact (v.mem_kept hm).2 rfl
  · intro h
    have h1 : v.prior.bytes = v.bytes := congrArg Utf8.encode (v.lost_of_not_mem h).1
    rw [h1]

theorem only_token_iff (k : Key) {positional : List Bytes} (hp : v.lost = [] → positional = []) :
    (k.bytes ++ equals :: v.prior.bytes) :: tokens v.lost = [k.bytes ++ equals :: v.bytes] ∧
      positional = [] ↔ q.other.char ∉ v.chars := by
  constructor
  · -- a value that was cut short shows in its own token already
    rintro ⟨h, -⟩
    exact (v.token_eq_iff k).1 (List.cons.inj h).1
  · intro h
    have h1 := (v.lost_of_not_mem h).2
    rw [(v.token_eq_iff k).2 h, h1, tokens_nil]
    exact ⟨rfl, hp h1⟩

end Enclosed

/-- A value is read up to the first quote of either sort, and what stands behind that is read as text
of its own. So a pair gives its whole value, and nothing else, just when there is no quote in it. -/
theorem parse_enclosed (k : Key) {q : Quote} (v : Enclosed q) (helper : Word) :
    parse (v.assignment k) =
      { name := (words v.lost).headD []
        positional := (words v.lost).tail
        named := (k.bytes ++ equals :: Utf8.encode v.kept) :: tokens v.lost } ∧
    parse (helper.bytes ++ 0x20 :: v.assignment k) =
      { name := helper.bytes
        positional := words v.lost
        named := (k.bytes ++ equals :: Utf8.encode v.kept) :: tokens v.lost } ∧
    ((parse (v.assignment k)).named = [k.bytes ++ equals :: v.bytes] ∧
      (parse (v.assignment k)).positional = [] ↔ q.other.char ∉ v.chars) ∧
    ((parse (helper.bytes ++ 0x20 :: v.assignment k)).named = [k.bytes ++ equals :: v.bytes] ∧
      (parse (helper.bytes ++ 0x20 :: v.assignment k)).positional = [] ↔
        q.other.char ∉ v.chars) := by
  have h1 := v.reads_assignment k
  have h2 : Reads (helper.bytes ++ 0x20 :: v.assignment k) (helper.bytes :: words v.lost)
      ((k.bytes ++ equals :: v.prior.bytes) :: tokens v.lost) := by
    have h3 := (h1.blanks ⟨[0x20], by decide⟩).word (by simp [Bytes.isBlank]) helper.ne_nil
      helper.solid
    rwa [unquote_of_ne helper.not_quoted] at h3
  rw [h1.parse_eq, h2.parse_eq]
  exact ⟨rfl, rfl, v.only_token_iff k fun h => by rw [h, words_nil]; rfl,
    v.only_token_iff k fun h => by rw [h, words_nil]; rfl⟩

/-- An apostrophe ends a value between double quotes, and its rest becomes the name, or an argument
of the helper. -/
theorem parse_enclosed_apostrophe :
    ∃ (k : Key) (v : Enclosed .double) (helper : Word),
      k.bytes = Utf8.ofString "title" ∧ v.bytes = Utf8.ofString "it's" ∧
      helper.bytes = Utf8.ofString "asset" ∧
      v.chars.head? ≠ some '\x27' ∧ v.chars.getLast? ≠ some '\x27' ∧
      parse (v.assignment k) =
        ⟨Utf8.ofString "s\x22", [], [Utf8.ofString "title=it"]⟩ ∧
      parse (helper.bytes ++ 0x20 :: v.assignment k) =
        ⟨Utf8.ofString "asset", [Utf8.ofString "s\x22"], [Utf8.ofString "title=it"]⟩ ∧
      ¬ ((parse (v.assignment k)).named = [k.bytes ++ equals :: v.bytes] ∧
        (parse (v.assignment k)).positional = []) ∧
      ¬ ((parse (helper.bytes ++ 0x20 :: v.assignment k)).named = [k.bytes ++ equals :: v.bytes] ∧
        (parse (helper.bytes ++ 0x20 :: v.assignment k)).positional = []) := by
  let k : Key := ⟨['t', 'i', 't', 'l', 'e'], by simp, by simp [Text.isBlank]⟩
  let v : Enclosed .double := ⟨['i', 't', '\x27', 's'], by simp [Quote.char]⟩
  let helper : Word := ⟨Utf8.ofString "asset", by decide, by decide, by
    refine ne_quoted_of_head? fun b hb => ?_
    cases hb
    rfl⟩
  refine ⟨k, v, helper, rfl, rfl, rfl, by decide, by decide, ?_, ?_, ?_, ?_⟩
  all_goals decide +kernel

end ThemeTemplates.Arguments
