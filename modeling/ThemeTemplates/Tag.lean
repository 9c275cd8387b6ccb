import ThemeTemplates.Bytes

/-! # Tags

A tag starts at two opening braces and ends after two closing ones, three if a third brace opened
it. A long comment, opened by `!--` after the braces, ends after the first `--` with two closing
braces instead, and may hold tags.

* `Tag.scan src` is the first tag of `src` with the text on either side of it.
* `Tag.excise` is the text without the tag, `Tag.scanAll` scans and excises until no tag is left.
* `Tag.exists_of_scan` gives the source back from a tag, `Tag.length_of_scan` says that a tag takes
  at least four bytes.
-/

namespace ThemeTemplates

set_option autoImplicit false

namespace Tag

inductive Kind
  | comment
  | opener
  | closer
  | expression
  deriving DecidableEq, Repr

/-! ## Marks -/

def openMark : Bytes := [0x7B, 0x7B]

def closeMark : Bytes := [0x7D, 0x7D]

/-- What makes a tag a long comment: an exclamation mark and two hyphens. -/
def commentMark : Bytes := [0x21, 0x2D, 0x2D]

/-- What closes a long comment: two hyphens and two closing braces. -/
def commentEnd : Bytes := [0x2D, 0x2D, 0x7D, 0x7D]

/-- What makes a tag a short comment: an exclamation mark and a space. -/
def remarkMark : Bytes := [0x21, 0x20]

end Tag

structure Tag where
  kind : Tag.Kind
  before : Bytes
  /-- What the tag holds, without its braces, the sign of its kind and the blanks at the ends. -/
  content : Bytes
  after : Bytes
  /-- Set if three braces opened the tag. -/
  unescaped : Bool
  deriving DecidableEq, Repr

namespace Tag

/-! ## Scanning -/

/-- The body of a long comment, its mark included, and the text after it. The argument is the text
after the opening braces. -/
def longComment? (inner : Bytes) : Option (Bytes × Bytes) :=
  if commentMark.isPrefixOf inner then
    (Bytes.cut? commentEnd (inner.drop commentMark.length)).map fun p => (commentMark ++ p.1, p.2)
  else none

/-- The kind of a tag by the first bytes of what it holds, and the rest of that. -/
def classify (content : Bytes) : Kind × Bytes :=
  if remarkMark.isPrefixOf content || commentMark.isPrefixOf content then (.comment, content)
  else match content with
    | 0x23 :: r => (.opener, r)
    | 0x2F :: r => (.closer, Bytes.trim r)
    | _ => (.expression, content)

/-- A tag from the text before it, what stands between its braces, and the text after them. A third
opening brace asks for a third byte at the end, whatever that byte is. -/
def ofInterior (before interior after : Bytes) : Tag :=
  match interior with
  | 0x7B :: r =>
    let (kind, content) := classify (Bytes.trim r)
    ⟨kind, before, content, after.drop 1, true⟩
  | _ =>
    let (kind, content) := classify (Bytes.trim interior)
    ⟨kind, before, content, after, false⟩

def scan (src : Bytes) : Option Tag :=
  match Bytes.cut? openMark src with
  | none => none
  | some (before, inner) =>
    match longComment? inner with
    | some (body, after) => some ⟨.comment, before, Bytes.trim body, after, false⟩
    | none => (Bytes.cut? closeMark inner).map fun p => ofInterior before p.1 p.2

/-- Where the tag stands: the number of bytes before it. -/
def position (t : Tag) : Nat := t.before.length

def excise (t : Tag) : Bytes := t.before ++ t.after

/-! ## What a scan leaves -/

theorem eq_of_longComment? {inner body after : Bytes} (h : longComment? inner = some (body, after)) :
    inner = body ++ commentEnd ++ after := by
  unfold longComment? at h
  split at h
  next h1 =>
    obtain ⟨⟨p, q⟩, h2, h3⟩ := Option.map_eq_some_iff.1 h
    simp only [Prod.mk.injEq] at h3
    obtain ⟨rfl, rfl⟩ := h3
    rw [← Bytes.append_drop_of_isPrefixOf h1, Bytes.eq_of_cut? h2]
    simp
  next => cases h

@[simp] theorem ofInterior_before (before interior after : Bytes) :
    (ofInterior before interior after).before = before := by
  unfold ofInterior
  split <;> rfl

/-- The text after a tag ends the text after its closing braces. -/
theorem exists_ofInterior_after (before interior after : Bytes) :
    ∃ dropped, after = dropped ++ (ofInterior before interior after).after := by
  unfold ofInterior
  split
  · exact ⟨after.take 1, (List.take_append_drop 1 after).symm⟩
  · exact ⟨[], rfl⟩

/-- A scan loses nothing: a tag stands between the text before and after it, its opening braces
first. -/
theorem exists_of_scan {src : Bytes} {t : Tag} (h : scan src = some t) :
    ∃ body, src = t.before ++ (openMark ++ body) ++ t.after ∧ 2 ≤ body.length := by
  unfold scan at h
  split at h
  next => cases h
  next before inner h1 =>
    have e := Bytes.eq_of_cut? h1
    split at h
    next body after h2 =>
      cases h
      refine ⟨body ++ commentEnd, ?_, by simp [commentEnd]⟩
      rw [e, eq_of_longComment? h2]
      simp
    next =>
      obtain ⟨⟨interior, after⟩, h3, rfl⟩ := Option.map_eq_some_iff.1 h
      obtain ⟨dropped, h4⟩ := exists_ofInterior_after before interior after
      refine ⟨interior ++ closeMark ++ dropped, ?_, by simp [closeMark]; omega⟩
      rw [ofInterior_before, e, Bytes.eq_of_cut? h3]
      simp only [List.append_assoc]
      rw [← h4]

theorem length_of_scan {src : Bytes} {t : Tag} (h : scan src = some t) :
    t.before.length + 4 + t.after.length ≤ src.length := by
  obtain ⟨body, e, h1⟩ := exists_of_scan h
  rw [e]
  simp only [openMark, List.length_append, List.length_cons, List.length_nil]
  omega

theorem length_after_of_scan {src : Bytes} {t : Tag} (h : scan src = some t) :
    t.after.length < src.length := by
  have h1 := length_of_scan h
  omega

theorem length_excise_of_scan {src : Bytes} {t : Tag} (h : scan src = some t) :
    t.excise.length < src.length := by
  have h1 := length_of_scan h
  rw [excise, List.length_append]
  omega

/-! ## All tags of a text -/

/-- The tags of a text, each found in what its forerunners left, and the text that remains. -/
def scanAll (src : Bytes) : List Tag × Bytes :=
  match _h : scan src with
  | none => ([], src)
  | some t =>
    let (tags, rest) := scanAll t.excise
    (t :: tags, rest)
termination_by src.length
decreasing_by exact length_excise_of_scan _h

end Tag

end ThemeTemplates
