/-! # Byte strings

Templates, tag interiors and paths are lists of bytes, of which a text encoding is never assumed.

* `trim s` drops the ASCII blanks at both ends.
* `parts separates s` is the list of the nonempty stretches between separators, and `fields s` that
  of the nonempty stretches between ASCII blanks.
* `cut? mark s` splits `s` around the first occurrence of `mark`: `eq_of_cut?` says that nothing is
  lost.
* `Span` is a stretch of positions, `start` included and `stop` not.
-/

namespace ThemeTemplates

set_option autoImplicit false

abbrev Bytes := List UInt8

namespace Bytes

/-! ## Blanks and fields -/

/-- Tab, line feed, form feed, carriage return and space. The vertical tab is no blank here. -/
def isBlank (b : UInt8) : Bool :=
  b == 0x20 || b == 0x09 || b == 0x0A || b == 0x0C || b == 0x0D

/-- The bytes up to the last one that is no blank. -/
def trimEnd (s : Bytes) : Bytes := (s.reverse.dropWhile isBlank).reverse

/-- The bytes from the first one that is no blank up to the last one. -/
def trim (s : Bytes) : Bytes := trimEnd (s.dropWhile isBlank)

/-- The stretches between the bytes that separate, empty ones included. -/
def pieces (separates : UInt8 → Bool) : Bytes → List Bytes
  | [] => [[]]
  | b :: r =>
    match separates b, pieces separates r with
    | true, ps => [] :: ps
    | false, [] => [[b]]
    | false, p :: ps => (b :: p) :: ps

def parts (separates : UInt8 → Bool) (s : Bytes) : List Bytes :=
  (pieces separates s).filter fun p => !p.isEmpty

def fields (s : Bytes) : List Bytes := parts isBlank s

/-! ## The first occurrence of a mark -/

/-- The text before the first occurrence of `mark`, and the text after it. -/
def cut? (mark : Bytes) : Bytes → Option (Bytes × Bytes)
  | [] => if mark.isEmpty then some ([], []) else none
  | b :: r =>
    if mark.isPrefixOf (b :: r) then some ([], (b :: r).drop mark.length)
    else (cut? mark r).map fun p => (b :: p.1, p.2)

/-- A mark that starts `s` is followed by the rest of `s`. -/
theorem append_drop_of_isPrefixOf {mark s : Bytes} (h : mark.isPrefixOf s = true) :
    mark ++ s.drop mark.length = s := by
  obtain ⟨t, rfl⟩ := List.isPrefixOf_iff_prefix.1 h
  simp

theorem eq_of_cut? {mark s before after : Bytes} (h : cut? mark s = some (before, after)) :
    s = before ++ mark ++ after := by
  induction s generalizing before with
  | nil =>
    cases mark with
    | nil =>
      simp only [cut?, List.isEmpty_nil, if_true, Option.some.injEq, Prod.mk.injEq] at h
      obtain ⟨h1, h2⟩ := h
      simp [← h1, ← h2]
    | cons m ms => simp [cut?] at h
  | cons b r ih =>
    rw [cut?] at h
    split at h
    next h1 =>
      simp only [Option.some.injEq, Prod.mk.injEq] at h
      obtain ⟨h2, h3⟩ := h
      rw [← h2, ← h3, List.nil_append, append_drop_of_isPrefixOf h1]
    next =>
      obtain ⟨⟨p, q⟩, h1, h2⟩ := Option.map_eq_some_iff.1 h
      simp only [Prod.mk.injEq] at h2
      obtain ⟨h3, h4⟩ := h2
      subst h4
      rw [← h3, ih h1]
      simp

theorem length_of_cut? {mark s before after : Bytes} (h : cut? mark s = some (before, after)) :
    s.length = before.length + mark.length + after.length := by
  rw [eq_of_cut? h, List.length_append, List.length_append]

end Bytes

/-! ## Spans -/

structure Span where
  start : Nat
  stop : Nat
  deriving DecidableEq, Repr

def Span.contains (s : Span) (i : Nat) : Bool := s.start ≤ i && i < s.stop

end ThemeTemplates
