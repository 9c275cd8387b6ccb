import ThemeTemplates.Arguments
import ThemeTemplates.Proofs.Characters
import ThemeTemplates.Proofs.Fields

/-! # Arguments in any order

The interior of a tag is written as items with blanks between them: words, quoted words, and pairs
of a key and a quoted value. The words come back as fields and the pairs as tokens, each in their
order, so it does not matter how the two are mixed (`parse_written`).

* `Unassigned s`: behind the blanks at the start of `s` stands no equals sign, so no key ends there.
  What comes before `s` without an equals sign is not divided (`divide_append`).
* `Reads s fields tokens`: the words and the pairs that a text holds. An item in front of the text
  adds what it holds (`Reads.item`).
-/

namespace ThemeTemplates.Arguments

set_option autoImplicit false

/-! ## Where no key ends -/

/-- No equals sign follows the blanks at the start of a text. -/
def Unassigned (s : Bytes) : Prop := (Text.dropBlanks s).head? ≠ some equals

theorem Unassigned.assigned? {s : Bytes} (h : Unassigned s) : assigned? s = none := by
  unfold Arguments.assigned?
  split
  next => rfl
  next e r h1 =>
    rw [Unassigned, h1] at h
    have h2 : (e == equals) = false := beq_false_of_ne fun h3 => h (by rw [h3]; rfl)
    rw [h2]
    rfl

theorem Unassigned.pairEnd? {s : Bytes} (h : Unassigned s) (run : Bytes) :
    pairEnd? run s = none := by
  unfold Arguments.pairEnd?
  split
  next => rfl
  next => exact h.assigned?

theorem unassigned_nil : Unassigned [] := by simp [Unassigned, Text.dropBlanks]

theorem head?_ne_equals {c : Char} (hc : c ≠ '=') (r : Bytes) :
    (Utf8.encodeChar c ++ r).head? ≠ some equals := by
  cases he : Utf8.encodeChar c with
  | nil => exact absurd he (Utf8.encodeChar_ne_nil c)
  | cons b x =>
    intro h
    have h1 : c ≠ Utf8.asciiChar equals := hc
    exact Utf8.ne_of_encodeChar he (by decide) h1 (by simpa using h)

theorem unassigned_char {c : Char} (hb : Text.isBlank c = false) (hc : c ≠ '=') (r : Bytes) :
    Unassigned (Utf8.encodeChar c ++ r) := by
  rw [Unassigned, Text.dropBlanks_char hb]
  exact head?_ne_equals hc r

theorem Unassigned.blanks {w s : Bytes} (h : Unassigned s) (hw : Bytes.Blank w) :
    Unassigned (w ++ s) := by
  rwa [Unassigned, Text.dropBlanks_append hw]

/-- Before a blank, or at the end of the text, a character is read as if nothing followed. -/
theorem char?_append {u s : Bytes} (hu : u ≠ []) (hs : ∀ b ∈ s.head?, Bytes.isBlank b = true) :
    Utf8.char? (u ++ s) = (Utf8.char? u).map fun p => (p.1, p.2 ++ s) := by
  cases s with
  | nil => simp
  | cons b s => exact Utf8.char?_append_ascii (Bytes.lt_of_isBlank (hs b rfl)) hu s

theorem Unassigned.append {u s : Bytes} (h : Unassigned s) (hu : equals ∉ u)
    (hs : ∀ b ∈ s.head?, Bytes.isBlank b = true) : Unassigned (u ++ s) := by
  -- blanks of `u` are dropped as long as there are any, and only a text of blanks reaches `s`
  fun_induction Text.blankLength u with
  | case1 u c r hc hb ih =>
    obtain rfl := Utf8.eq_of_char? hc
    have h1 : Utf8.encodeChar c = Utf8.encode [c] := by simp
    have h2 := ih fun h3 => hu (List.mem_append_right _ h3)
    rw [Unassigned, Text.dropBlanks] at h2 ⊢
    rw [List.append_assoc, h1, Text.blankLength_encode_append (by simpa using hb),
      List.drop_length_add_append]
    exact h2
  | case2 u c r hc hb =>
    obtain rfl := Utf8.eq_of_char? hc
    rw [List.append_assoc]
    refine unassigned_char (by simpa using hb) ?_ (r ++ s)
    rintro rfl
    exact hu (List.mem_append_left _ (by decide))
  | case3 u hc =>
    cases u with
    | nil => exact h
    | cons b u =>
      have h1 : Utf8.char? (b :: u ++ s) = none := by
        rw [char?_append (List.cons_ne_nil b u) hs, hc]
        rfl
      have h2 : Text.blankLength (b :: u ++ s) = 0 :=
        Text.blankLength_eq_zero_iff.2 fun c r h3 => by rw [h1] at h3; cases h3
      rw [Unassigned, Text.dropBlanks, h2]
      intro h3
      exact hu (by rw [Option.some.inj h3]; exact List.mem_cons_self)

/-! ## One step of a division -/

theorem divide_of_assigned {run s value rest : Bytes} (hr : run ≠ [])
    (h : assigned? s = some (value, rest)) :
    divide run s = (divide [] rest).addPair run value := by
  have h1 : pairEnd? run s = some (value, rest) := by
    rw [pairEnd?, if_neg (by simpa using hr), h]
  rw [divide]
  split
  next h2 =>
    rw [h1] at h2
    cases h2
    rfl
  next h2 => rw [h1] at h2; cases h2

theorem divide_of_char {s r : Bytes} {c : Char} (h : Unassigned s)
    (hc : Utf8.char? s = some (c, r)) (run : Bytes) : divide run s =
      if Text.isBlank c then (divide [] r).addGap (run ++ Utf8.encodeChar c)
      else divide (run ++ Utf8.encodeChar c) r := by
  rw [divide]
  split
  next h1 => rw [h.pairEnd?] at h1; cases h1
  next =>
    split
    next h1 =>
      rw [hc] at h1
      cases h1
      rfl
    next h1 => rw [hc] at h1; cases h1

theorem divide_of_malformed {b : UInt8} {s : Bytes} (h : Unassigned (b :: s))
    (hc : Utf8.char? (b :: s) = none) (run : Bytes) :
    divide run (b :: s) = (divide [] s).addGap (run ++ [b]) := by
  rw [divide]
  split
  next h1 => rw [h.pairEnd?] at h1; cases h1
  next =>
    split
    next h1 => rw [hc] at h1; cases h1
    next => rw [dif_neg (List.cons_ne_nil b s)]; rfl

theorem divide_nil (run : Bytes) : divide run [] = ⟨[], run⟩ := by
  rw [divide]
  split
  next h1 => rw [unassigned_nil.pairEnd?] at h1; cases h1
  next =>
    split
    next h1 => rw [Utf8.char?_nil] at h1; cases h1
    next => rw [dif_pos rfl]

theorem divide_blank {b : UInt8} {s : Bytes} (h : Unassigned (b :: s))
    (hb : Bytes.isBlank b = true) (run : Bytes) :
    divide run (b :: s) = (divide [] s).addGap (run ++ [b]) := by
  have h1 := Bytes.lt_of_isBlank hb
  rw [divide_of_char h (Utf8.char?_cons h1 s), if_pos (Text.isBlank_asciiChar hb),
    Utf8.encodeChar_asciiChar h1]

/-! ## Text between the pairs -/

theorem addGap_nil (d : Division) : d.addGap [] = d := by
  obtain ⟨pairs, last⟩ := d
  cases pairs <;> rfl

theorem addGap_addGap (t u : Bytes) (d : Division) :
    (d.addGap u).addGap t = d.addGap (t ++ u) := by
  obtain ⟨pairs, last⟩ := d
  cases pairs <;> simp [Division.addGap]

theorem rest_addGap (t : Bytes) (d : Division) : (d.addGap t).rest = t ++ d.rest := by
  obtain ⟨pairs, last⟩ := d
  cases pairs <;> simp [Division.addGap, Division.rest]

theorem map_token_addGap (t : Bytes) (d : Division) :
    (d.addGap t).pairs.map Pair.token = d.pairs.map Pair.token := by
  obtain ⟨pairs, last⟩ := d
  cases pairs <;> simp [Division.addGap, Pair.token]

theorem rest_addPair (key value : Bytes) (d : Division) : (d.addPair key value).rest = d.rest := by
  simp [Division.addPair, Division.rest]

theorem divide_blanks {w s : Bytes} (h : Unassigned s) (hw : Bytes.Blank w) :
    divide [] (w ++ s) = (divide [] s).addGap w := by
  induction w with
  | nil => rw [List.nil_append, addGap_nil]
  | cons b w ih =>
    have h1 : Unassigned (b :: (w ++ s)) := h.blanks hw
    rw [List.cons_append, divide_blank h1 (hw b List.mem_cons_self),
      ih fun c hc => hw c (List.mem_cons_of_mem _ hc), addGap_addGap]
    rfl

/-- A run ends where a blank follows, or nothing. -/
theorem divide_run {s : Bytes} (h : Unassigned s) (hs : ∀ b ∈ s.head?, Bytes.isBlank b = true)
    (run : Bytes) : divide run s = (divide [] s).addGap run := by
  cases s with
  | nil => simp [divide_nil, Division.addGap]
  | cons b s =>
    have hb := hs b rfl
    rw [divide_blank h hb, divide_blank h hb, addGap_addGap, List.nil_append]

/-- Text without an equals sign is no part of a pair. -/
theorem divide_append {s : Bytes} (h : Unassigned s) (hs : ∀ b ∈ s.head?, Bytes.isBlank b = true)
    {u : Bytes} (hu : equals ∉ u) (run : Bytes) :
    divide run (u ++ s) = (divide [] s).addGap (run ++ u) := by
  have h0 := h.append hu hs
  -- the steps are those of dividing `u` alone, since its last character ends before `s`
  fun_induction divide run u with
  | case1 run u value rest hp ih =>
    have h1 : Unassigned u := by
      have h2 := unassigned_nil.append hu (by simp)
      rwa [List.append_nil] at h2
    rw [h1.pairEnd?] at hp
    cases hp
  | case2 run u hp c r hc hb ih =>
    obtain rfl := Utf8.eq_of_char? hc
    have hr : equals ∉ r := fun h1 => hu (List.mem_append_right _ h1)
    rw [List.append_assoc] at h0 ⊢
    rw [divide_of_char h0 (Utf8.char?_encodeChar_append c _), if_pos hb, ih hr (h.append hr hs),
      addGap_addGap, List.nil_append, List.append_assoc]
  | case3 run u hp c r hc hb ih =>
    obtain rfl := Utf8.eq_of_char? hc
    have hr : equals ∉ r := fun h1 => hu (List.mem_append_right _ h1)
    rw [List.append_assoc] at h0 ⊢
    rw [divide_of_char h0 (Utf8.char?_encodeChar_append c _), if_neg hb, ih hr (h.append hr hs),
      List.append_assoc]
  | case4 run hp hc => rw [List.nil_append, List.append_nil, divide_run h hs]
  | case5 run u hp hc hne ih =>
    cases u with
    | nil => exact absurd rfl hne
    | cons b u =>
      have hr : equals ∉ u := fun h1 => hu (List.mem_cons_of_mem _ h1)
      have h1 : Utf8.char? (b :: (u ++ s)) = none := by
        have h2 := char?_append (List.cons_ne_nil b u) hs
        rwa [hc] at h2
      have h3 := ih hr (h.append hr hs)
      rw [List.cons_append] at h0 ⊢
      rw [divide_of_malformed h0 h1, show u ++ s = (b :: u).drop 1 ++ s from rfl, h3, addGap_addGap]
      simp

/-- Where a text starts with a blank, so does what its pairs leave of it. -/
theorem head?_rest {s : Bytes} (h : Unassigned s) (hs : ∀ b ∈ s.head?, Bytes.isBlank b = true) :
    ∀ b ∈ (division s).rest.head?, Bytes.isBlank b = true := by
  cases s with
  | nil => simp [division, divide_nil, Division.rest]
  | cons b s =>
    have hb := hs b rfl
    rw [division, divide_blank h hb, rest_addGap]
    intro c hc
    cases hc
    exact hb

/-! ## Quotes -/

inductive Quote
  | single
  | double

def Quote.byte : Quote → UInt8
  | single => 0x27
  | double => 0x22

theorem isQuote_iff {b : UInt8} : isQuote b = true ↔ ∃ q : Quote, q.byte = b := by
  rw [isQuote, Bool.or_eq_true, beq_iff_eq, beq_iff_eq]
  constructor
  · rintro (rfl | rfl)
    · exact ⟨.double, rfl⟩
    · exact ⟨.single, rfl⟩
  · rintro ⟨q, rfl⟩
    cases q
    · exact .inr rfl
    · exact .inl rfl

theorem Quote.isQuote_byte (q : Quote) : isQuote q.byte = true := isQuote_iff.2 ⟨q, rfl⟩

theorem unquote_quoted (q : Quote) (inner : Bytes) :
    unquote (q.byte :: (inner ++ [q.byte])) = inner := by
  simp [unquote, q.isQuote_byte]

theorem unquote_of_ne {w : Bytes} (h : ∀ (q : Quote) inner, w ≠ q.byte :: (inner ++ [q.byte])) :
    unquote w = w := by
  cases w with
  | nil => rfl
  | cons b r =>
    rw [unquote, if_neg]
    intro h1
    rw [Bool.and_eq_true, beq_iff_eq, isQuote_iff] at h1
    obtain ⟨⟨q, rfl⟩, h2⟩ := h1
    obtain ⟨inner, rfl⟩ := List.getLast?_eq_some_iff.1 h2
    exact h q inner rfl

theorem ne_quoted_of_head? {w : Bytes} (h : ∀ b ∈ w.head?, isQuote b = false) (q : Quote)
    (inner : Bytes) : w ≠ q.byte :: (inner ++ [q.byte]) := by
  rintro rfl
  have h1 := h q.byte rfl
  rw [q.isQuote_byte] at h1
  cases h1

/-! ## Items -/

/-- Text without blanks and equals signs. -/
def Solid (w : Bytes) : Prop := ∀ b ∈ w, Bytes.isBlank b = false ∧ b ≠ equals

instance : DecidablePred Solid := fun w => List.decidableBAll _ w

/-- A word may hold quotes, but does not stand in a pair of them. -/
structure Word where
  bytes : Bytes
  ne_nil : bytes ≠ []
  solid : Solid bytes
  not_quoted : ∀ (q : Quote) inner, bytes ≠ q.byte :: (inner ++ [q.byte])

structure Key where
  chars : List Char
  ne_nil : chars ≠ []
  plain : ∀ c ∈ chars, Text.isBlank c = false ∧ c ≠ '=' ∧ c ≠ '\x22' ∧ c ≠ '\x27'

def Key.bytes (k : Key) : Bytes := Utf8.encode k.chars

/-- What is assigned to a key. -/
structure Assigned where
  chars : List Char
  plain : ∀ c ∈ chars, c ≠ '\n' ∧ c ≠ '\x22' ∧ c ≠ '\x27'

def Assigned.bytes (v : Assigned) : Bytes := Utf8.encode v.chars

/-- ASCII blanks, or none. -/
structure Gap where
  bytes : Bytes
  blank : Bytes.Blank bytes

inductive Item
  | bare (word : Word)
  | quoted (q : Quote) (inner : Bytes) (h : Solid inner)
  | pair (key : Key) (before after : Gap) (q : Quote) (value : Assigned)

namespace Item

/-- An item as it is written. -/
def bytes : Item → Bytes
  | bare word => word.bytes
  | quoted q inner _ => q.byte :: (inner ++ [q.byte])
  | pair key before after q value => key.bytes ++
      (before.bytes ++ equals :: (after.bytes ++ q.byte :: (value.bytes ++ [q.byte])))

def field? : Item → Option Bytes
  | bare word => some word.bytes
  | quoted _ inner _ => some inner
  | pair _ _ _ _ _ => none

def token? : Item → Option Bytes
  | bare _ => none
  | quoted _ _ _ => none
  | pair key _ _ _ value => some (key.bytes ++ equals :: value.bytes)

end Item

/-- Items as they are written, with blanks between them and perhaps at the ends. -/
inductive Written : List Item → Bytes → Prop
  | nil (trail : Gap) : Written [] trail.bytes
  | cons (lead : Gap) (item : Item) {items : List Item} {s : Bytes} (h : Written items s)
      (hs : ∀ b ∈ s.head?, Bytes.isBlank b = true) :
      Written (item :: items) (lead.bytes ++ (item.bytes ++ s))

/-! ## Pairs -/

/-- The bytes of a text without quotes. -/
theorem isQuote_of_mem {cs : List Char} (h : ∀ c ∈ cs, c ≠ '\x22' ∧ c ≠ '\x27') :
    ∀ b ∈ Utf8.encode cs, isQuote b = false := by
  intro b hb
  rw [Bool.eq_false_iff]
  intro hq
  obtain ⟨q, rfl⟩ := isQuote_iff.1 hq
  cases q
  · exact (h _ ((Utf8.mem_encode_iff (by decide)).1 hb)).2 rfl
  · exact (h _ ((Utf8.mem_encode_iff (by decide)).1 hb)).1 rfl

theorem Assigned.not_quote (v : Assigned) : ∀ b ∈ v.bytes, isQuote b = false :=
  isQuote_of_mem fun c hc => (v.plain c hc).2

theorem Key.bytes_ne_nil (k : Key) : k.bytes ≠ [] := by
  intro h
  have h1 : Utf8.encode k.chars = Utf8.encode [] := h
  exact k.ne_nil (Utf8.encode_injective h1)

theorem Key.unassigned (k : Key) (r : Bytes) : Unassigned (k.bytes ++ r) := by
  obtain ⟨cs, hne, hp⟩ := k
  cases cs with
  | nil => exact absurd rfl hne
  | cons c cs =>
    obtain ⟨h1, h2, -⟩ := hp c List.mem_cons_self
    rw [Key.bytes, Utf8.encode_cons, List.append_assoc]
    exact unassigned_char h1 h2 _

/-- A key is read to its end, since no pair is made before an equals sign. -/
theorem divide_chars {cs : List Char} (h : ∀ c ∈ cs, Text.isBlank c = false ∧ c ≠ '=') :
    ∀ (run r : Bytes), divide run (Utf8.encode cs ++ r) = divide (run ++ Utf8.encode cs) r := by
  induction cs with
  | nil => intro run r; simp
  | cons c cs ih =>
    intro run r
    obtain ⟨h1, h2⟩ := h c List.mem_cons_self
    rw [Utf8.encode_cons, List.append_assoc, divide_of_char (unassigned_char h1 h2 _)
      (Utf8.char?_encodeChar_append c _), if_neg (by simp [h1]),
      ih fun d hd => h d (List.mem_cons_of_mem _ hd), List.append_assoc]

/-- A character is a quote, or no byte of it is one. -/
theorem quote_or_not (c : Char) : (∃ q : Quote, Utf8.encodeChar c = [q.byte]) ∨
    ∀ b ∈ Utf8.encodeChar c, isQuote b = false := by
  by_cases h : ∃ b ∈ Utf8.encodeChar c, isQuote b = true
  · obtain ⟨b, hb, hq⟩ := h
    obtain ⟨q, rfl⟩ := isQuote_iff.1 hq
    exact .inl ⟨q, (Utf8.encodeChar_of_mem hb (by cases q <;> decide)).1⟩
  · exact .inr fun b hb => Bool.eq_false_iff.2 fun hq => h ⟨b, hb, hq⟩

theorem value?_quote (q : Quote) (s : Bytes) : value? (q.byte :: s) = some ([], s) := by
  rw [value?, if_pos q.isQuote_byte]

theorem value?_char {c : Char} (hq : ∀ b ∈ Utf8.encodeChar c, isQuote b = false) (hn : c ≠ '\n')
    (s : Bytes) : value? (Utf8.encodeChar c ++ s) =
      (value? s).map fun p => (Utf8.encodeChar c ++ p.1, p.2) := by
  have h1 := Utf8.char?_encodeChar_append c s
  obtain ⟨b, x, he⟩ := List.exists_cons_of_ne_nil (Utf8.encodeChar_ne_nil c)
  have h2 : isQuote b = false := hq b (by rw [he]; exact List.mem_cons_self)
  rw [he, List.cons_append] at h1 ⊢
  rw [value?, if_neg (by simp [h2])]
  split
  next h3 => rw [h1] at h3; cases h3
  next c' r h3 =>
    rw [h1] at h3
    cases h3
    rw [if_neg (by simp [hn]), he]

/-- A value ends at the first quote. -/
theorem value?_encode {cs : List Char} (hn : ∀ c ∈ cs, c ≠ '\n')
    (hc : ∀ b ∈ Utf8.encode cs, isQuote b = false) (q : Quote) (r : Bytes) :
    value? (Utf8.encode cs ++ q.byte :: r) = some (Utf8.encode cs, r) := by
  induction cs with
  | nil => exact value?_quote q r
  | cons c cs ih =>
    rw [Utf8.encode_cons] at hc ⊢
    have h1 := ih (fun d hd => hn d (List.mem_cons_of_mem _ hd)) fun b hb =>
      hc b (List.mem_append_right _ hb)
    rw [List.append_assoc, value?_char (fun b hb => hc b (List.mem_append_left _ hb))
      (hn c List.mem_cons_self), h1]
    rfl

/-- What is assigned is read behind the blanks, the equals sign and the first quote. -/
theorem assigned?_encode {before after : List Char} (hb : ∀ c ∈ before, Text.isBlank c = true)
    (ha : ∀ c ∈ after, Text.isBlank c = true) (q : Quote) (s : Bytes) :
    assigned? (Utf8.encode before ++ equals :: (Utf8.encode after ++ q.byte :: s)) = value? s := by
  have h1 (s : Bytes) : Text.dropBlanks (q.byte :: s) = q.byte :: s := by
    cases q <;> exact Text.dropBlanks_ascii (by decide) (by decide) s
  rw [assigned?, Text.dropBlanks_encode_append hb,
    Text.dropBlanks_ascii (b := equals) (by decide) (by decide)]
  simp only [beq_self_eq_true, if_true]
  rw [Text.dropBlanks_encode_append ha, h1]
  simp only [q.isQuote_byte, if_true]

/-- A value that starts behind one quote ends at another, of either sort. -/
theorem assigned?_pair (before after : Gap) (q q' : Quote) (v : Assigned) (r : Bytes) :
    assigned? (before.bytes ++ equals :: (after.bytes ++ q.byte :: (v.bytes ++ q'.byte :: r))) =
      some (v.bytes, r) := by
  obtain ⟨bs, hb, hbs⟩ := Text.exists_encode_of_isBlank before.blank
  obtain ⟨cs, ha, hcs⟩ := Text.exists_encode_of_isBlank after.blank
  rw [hb, ha, assigned?_encode hbs hcs]
  exact value?_encode (fun c hc => (v.plain c hc).1) v.not_quote q' r

/-- A pair in front of a text is divided off, and the text is divided as it would be by itself. -/
theorem division_pair (k : Key) (before after : Gap) (q q' : Quote) (v : Assigned) (s : Bytes) :
    division (k.bytes ++
      (before.bytes ++ equals :: (after.bytes ++ q.byte :: (v.bytes ++ q'.byte :: s)))) =
        (division s).addPair k.bytes v.bytes := by
  rw [division, Key.bytes, divide_chars fun c hc => ⟨(k.plain c hc).1, (k.plain c hc).2.1⟩]
  exact divide_of_assigned k.bytes_ne_nil (assigned?_pair before after q q' v s)

/-- Only a token whose last byte is a quote loses any of its bytes. -/
theorem joinPair_of_getLast? {token : Bytes} (h : ∀ b ∈ token.getLast?, isQuote b = false) :
    joinPair token = token := by
  unfold joinPair
  split
  next => rfl
  next x r hd =>
    refine if_neg fun h1 => ?_
    rw [Bool.and_eq_true, Bool.and_eq_true, beq_iff_eq, Option.map_eq_some_iff] at h1
    obtain ⟨-, b, hb, hq⟩ := h1
    obtain ⟨u, hu⟩ := List.dropWhile_suffix (l := token) fun b => !isQuote b
    obtain ⟨v, rfl⟩ := List.getLast?_eq_some_iff.1 hb
    have hl : token.getLast? = some b := by
      rw [← hu, hd, ← List.cons_append, ← List.append_assoc, List.getLast?_concat]
    rw [h b hl] at hq
    cases hq

theorem not_quote_getLast? {key value : Bytes} (h : ∀ b ∈ value, isQuote b = false) :
    ∀ b ∈ (key ++ equals :: value).getLast?, isQuote b = false := by
  intro b hb
  have h1 : (equals :: value).getLast? = some b := by
    rwa [List.getLast?_append, List.getLast?_cons, Option.some_or, ← List.getLast?_cons] at hb
  rcases List.mem_cons.1 (List.mem_of_getLast? h1) with rfl | hb
  · rfl
  · exact h b hb

/-- The token of a pair whose value has no quotes is the key and the value as they are. -/
theorem token_of_not_quote {p : Pair} (h : ∀ b ∈ p.value, isQuote b = false) :
    p.token = p.key ++ equals :: p.value :=
  joinPair_of_getLast? (not_quote_getLast? h)

theorem token_pair (k : Key) (v : Assigned) (gap : Bytes) :
    Pair.token ⟨gap, k.bytes, v.bytes⟩ = k.bytes ++ equals :: v.bytes :=
  token_of_not_quote v.not_quote

/-! ## What a text holds -/

/-- The words of a text are `fields` and its pairs `tokens`. -/
structure Reads (s : Bytes) (fields tokens : List Bytes) : Prop where
  unassigned : Unassigned s
  fields : (Bytes.fields (division s).rest).map unquote = fields
  tokens : (division s).pairs.map Pair.token = tokens

section
variable {s : Bytes} {fields tokens : List Bytes}

theorem reads_nil : Reads [] [] [] := by
  refine ⟨unassigned_nil, ?_, ?_⟩
  all_goals rw [division, divide_nil]; rfl

theorem Reads.blanks (h : Reads s fields tokens) (g : Gap) :
    Reads (g.bytes ++ s) fields tokens := by
  have h1 : division (g.bytes ++ s) = (division s).addGap g.bytes :=
    divide_blanks h.unassigned g.blank
  refine ⟨h.unassigned.blanks g.blank, ?_, ?_⟩
  · rw [h1, rest_addGap, Bytes.fields_append_of_blank g.blank, h.fields]
  · rw [h1, map_token_addGap, h.tokens]

theorem Reads.word (h : Reads s fields tokens) (hs : ∀ b ∈ s.head?, Bytes.isBlank b = true)
    {w : Bytes} (hne : w ≠ []) (hw : Solid w) : Reads (w ++ s) (unquote w :: fields) tokens := by
  have he : equals ∉ w := fun h1 => (hw _ h1).2 rfl
  have h1 : division (w ++ s) = (division s).addGap w := divide_append h.unassigned hs he []
  refine ⟨h.unassigned.append he hs, ?_, ?_⟩
  · rw [h1, rest_addGap, Bytes.fields_append (fun b hb => (hw b hb).1) hne
      (head?_rest h.unassigned hs), List.map_cons, h.fields]
  · rw [h1, map_token_addGap, h.tokens]

/-- Behind a pair, a text holds the words and the pairs that it holds by itself. -/
theorem reads_pair (k : Key) (before after : Gap) (q q' : Quote) (v : Assigned) (s : Bytes) :
    Reads (k.bytes ++
        (before.bytes ++ equals :: (after.bytes ++ q.byte :: (v.bytes ++ q'.byte :: s))))
      ((Bytes.fields (division s).rest).map unquote)
      ((k.bytes ++ equals :: v.bytes) :: (division s).pairs.map Pair.token) := by
  refine ⟨k.unassigned _, ?_, ?_⟩
  · rw [division_pair, rest_addPair]
  · rw [division_pair, Division.addPair, List.map_cons, token_pair]

theorem Reads.pair (h : Reads s fields tokens) (k : Key) (before after : Gap) (q : Quote)
    (v : Assigned) : Reads ((Item.pair k before after q v).bytes ++ s) fields
      ((k.bytes ++ equals :: v.bytes) :: tokens) := by
  have e : (Item.pair k before after q v).bytes ++ s = k.bytes ++
      (before.bytes ++ equals :: (after.bytes ++ q.byte :: (v.bytes ++ q.byte :: s))) := by
    simp [Item.bytes]
  have h1 := reads_pair k before after q q v s
  rwa [h.fields, h.tokens, ← e] at h1

theorem solid_quoted (q : Quote) {inner : Bytes} (h : Solid inner) :
    Solid (q.byte :: (inner ++ [q.byte])) := by
  have h1 : Bytes.isBlank q.byte = false ∧ q.byte ≠ equals := by cases q <;> decide
  intro b hb
  rcases List.mem_cons.1 hb with rfl | hb
  · exact h1
  · rcases List.mem_append.1 hb with hb | hb
    · exact h b hb
    · rw [List.mem_singleton.1 hb]
      exact h1

/-- An item adds what it holds to what follows it. -/
theorem Reads.item (h : Reads s fields tokens) (hs : ∀ b ∈ s.head?, Bytes.isBlank b = true)
    (item : Item) :
    Reads (item.bytes ++ s) (item.field?.toList ++ fields) (item.token?.toList ++ tokens) := by
  cases item with
  | bare word =>
    have h1 := h.word hs word.ne_nil word.solid
    rwa [unquote_of_ne word.not_quoted] at h1
  | quoted q inner hi =>
    have h1 := h.word hs (List.cons_ne_nil _ _) (solid_quoted q hi)
    rwa [unquote_quoted] at h1
  | pair k before after q v => exact h.pair k before after q v

end

theorem Written.reads {items : List Item} {s : Bytes} (h : Written items s) :
    Reads s (items.filterMap Item.field?) (items.filterMap Item.token?) := by
  induction h with
  | nil trail =>
    have h1 := reads_nil.blanks trail
    rwa [List.append_nil] at h1
  | cons lead item h hs ih =>
    have h1 := (ih.item hs item).blanks lead
    cases item <;> exact h1

theorem Reads.parse_eq {s : Bytes} {fields tokens : List Bytes} (h : Reads s fields tokens) :
    parse s = ⟨fields.headD [], fields.tail, tokens⟩ := by
  rw [Arguments.parse_eq, h.fields, h.tokens]

/-- The first word is the name and the others are the positional arguments, and each pair is a
token. A text that mixes the same words with the same pairs in another way is parsed alike. -/
theorem parse_written {items : List Item} {s : Bytes} (h : Written items s) :
    parse s =
      { name := (items.filterMap Item.field?).headD []
        positional := (items.filterMap Item.field?).tail
        named := items.filterMap Item.token? } ∧
    ∀ {items' : List Item} {s' : Bytes}, Written items' s' →
      items'.filterMap Item.field? = items.filterMap Item.field? →
      items'.filterMap Item.token? = items.filterMap Item.token? → parse s' = parse s := by
  refine ⟨h.reads.parse_eq, fun h' hf ht => ?_⟩
  rw [h'.reads.parse_eq, h.reads.parse_eq, hf, ht]

theorem parse_written_mixed :
    ∃ (items items' : List Item) (s s' : Bytes), Written items s ∧ Written items' s' ∧
      items'.filterMap Item.field? = items.filterMap Item.field? ∧
      items'.filterMap Item.token? = items.filterMap Item.token? ∧
      s = Utf8.ofString " foo' k = 'v = w' \"a'b\"" ∧
      s' = Utf8.ofString "k=\"v = w\" foo' 'a'b' " ∧
      parse s = ⟨Utf8.ofString "foo'", [Utf8.ofString "a'b"], [Utf8.ofString "k=v = w"]⟩ ∧
      parse s' = parse s := by
  let foo : Item := .bare ⟨Utf8.ofString "foo'", by decide, by decide, by
    refine ne_quoted_of_head? fun b hb => ?_
    cases hb
    rfl⟩
  let gap : Gap := ⟨[], by decide⟩
  let space : Gap := ⟨[0x20], by decide⟩
  let pair (before after : Gap) (q : Quote) : Item :=
    .pair ⟨['k'], by simp, by simp [Text.isBlank]⟩ before after q
      ⟨['v', ' ', '=', ' ', 'w'], by simp⟩
  let quoted (q : Quote) : Item := .quoted q (Utf8.ofString "a'b") (by decide)
  have hs (s : Bytes) : ∀ b ∈ (0x20 :: s : Bytes).head?, Bytes.isBlank b = true := by
    intro b hb
    cases hb
    rfl
  have h1 : Written [foo, pair space space .single, quoted .double] _ :=
    .cons space _ (.cons space _ (.cons space _ (.nil gap) (by simp [gap])) (hs _)) (hs _)
  have h2 : Written [pair gap gap .double, foo, quoted .single] _ :=
    .cons gap _ (.cons space _ (.cons space _ (.nil space) (hs [])) (hs _)) (hs _)
  obtain ⟨h3, h4⟩ := parse_written h1
  exact ⟨_, _, _, _, h1, h2, rfl, rfl, by decide +kernel, by decide +kernel, h3, h4 h2 rfl rfl⟩

end ThemeTemplates.Arguments
