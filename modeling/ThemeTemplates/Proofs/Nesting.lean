import ThemeTemplates.Proofs.Compiles
import ThemeTemplates.Proofs.Pieces

/-! # Compiling nested pieces

* `Piece.Builds functions offset ps f`: the pieces `ps` build the fragment `f`, a block from the
  pieces between its two brackets.
* `Legible.fragment_eq_ok_iff`: the text of legible pieces compiles to what the pieces build.
* `exists_builds_iff`: pieces build something just when their brackets are nested.

Behind an opener the search for the closer counts the brackets of one name only. As other names
close in between, it ends at the closer that the nesting asks for (`search_marks`).
-/

namespace ThemeTemplates.Piece

set_option autoImplicit false

open Block Delimiter

/-! ## The marks of one name -/

def mark? (name : Bytes) (offset : Nat) (p : Piece) : Option Mark :=
  if p.bracket? = some (.opening name) then some ⟨.opener, ⟨offset, offset + p.bytes.length⟩⟩
  else if p.bracket? = some (.closing name) then some ⟨.closer, ⟨offset, offset + p.bytes.length⟩⟩
  else none

/-- The brackets of one name, at their places. -/
def marks (name : Bytes) : Nat → List Piece → List Mark
  | _, [] => []
  | offset, p :: ps => (p.mark? name offset).toList ++ marks name (offset + p.bytes.length) ps

theorem start_of_mark? {name : Bytes} {offset : Nat} {p : Piece} {m : Mark}
    (h : p.mark? name offset = some m) : m.span.start = offset ∧ 0 < p.bytes.length := by
  unfold mark? at h
  split at h
  next h1 =>
    cases h
    exact ⟨rfl, length_pos_of_bracket? h1⟩
  next =>
    split at h
    next h1 =>
      cases h
      exact ⟨rfl, length_pos_of_bracket? h1⟩
    next => cases h

theorem le_of_mem_marks {name : Bytes} {ps : List Piece} : ∀ {offset : Nat},
    ∀ m ∈ marks name offset ps, offset ≤ m.span.start := by
  induction ps with
  | nil => simp [marks]
  | cons p ps ih =>
    intro offset m hm
    rcases List.mem_append.1 hm with hm | hm
    · rw [(start_of_mark? (Option.mem_toList.1 hm)).1]
    · have h1 := ih m hm
      omega

theorem pairwise_marks {name : Bytes} {ps : List Piece} : ∀ {offset : Nat},
    (marks name offset ps).Pairwise fun m m' => m.span.start < m'.span.start := by
  induction ps with
  | nil => simp [marks]
  | cons p ps ih =>
    intro offset
    refine List.pairwise_append.2 ⟨?_, ih, ?_⟩
    · cases p.mark? name offset <;> simp
    · intro m hm m' hm'
      obtain ⟨h1, h2⟩ := start_of_mark? (Option.mem_toList.1 hm)
      have h3 := le_of_mem_marks m' hm'
      omega

theorem closers_of_legible {name : Bytes} (hw : Word name) {ps : List Piece} (h : Legible ps) :
    ∀ {offset : Nat}, live .closer name offset (join ps) =
      Mark.ofSide .closer (marks name offset ps) := by
  induction ps with
  | nil => intro offset; exact live_of_scan_eq_none (by decide) hw offset
  | cons p ps ih =>
    intro offset
    obtain ⟨h1, h2⟩ := h
    rw [marks, Mark.ofSide_append, join_cons, ← ih h2]
    by_cases hb : p.bracket? = some (.closing name)
    · obtain ⟨stop, h3, h4⟩ := h1.live_of_eq .closer hb offset
      rw [h3, h4 rfl, mark?, if_neg (by rw [hb]; simp), if_pos hb]
      rfl
    · rw [h1.live_of_ne .closer hw hb offset, mark?]
      rw [if_neg hb]
      split <;> rfl

theorem openers_of_legible {name : Bytes} (hw : Word name) {ps : List Piece} (h : Legible ps) :
    ∀ {offset : Nat}, (live .opener name offset (join ps)).map Span.start =
      (Mark.ofSide .opener (marks name offset ps)).map Span.start := by
  induction ps with
  | nil =>
    intro offset
    rw [join_nil, live_of_scan_eq_none (by decide) hw]
    rfl
  | cons p ps ih =>
    intro offset
    obtain ⟨h1, h2⟩ := h
    rw [marks, Mark.ofSide_append, List.map_append, join_cons, ← ih h2]
    by_cases hb : p.bracket? = some (.opening name)
    · obtain ⟨stop, h3, -⟩ := h1.live_of_eq .opener hb offset
      rw [h3, mark?, if_pos hb]
      rfl
    · rw [h1.live_of_ne .opener hw hb offset, mark?, if_neg hb]
      split <;> rfl

theorem settle_congr {os os' cs : List Span} (h : os.map Span.start = os'.map Span.start) :
    settle os cs = settle os' cs := by
  induction os generalizing os' cs with
  | nil =>
    cases os' with
    | nil => rfl
    | cons o' os' => cases h
  | cons o os ih =>
    cases os' with
    | nil => cases h
    | cons o' os' =>
      obtain ⟨h1, h2⟩ := List.cons.inj h
      cases cs with
      | nil => rfl
      | cons c cs => rw [settle, settle, h1, ih h2]

/-- In a legible text the closer of a block is found by counting the brackets of its name. -/
theorem closing?_eq_search {name : Bytes} (hw : Word name) {ps : List Piece} (h : Legible ps) :
    closing? name (join ps) = Mark.search 0 (marks name 0 ps) := by
  rw [closing?, delimiters_of_word hw, delimiters_of_word hw,
    settle_congr (openers_of_legible hw h), closers_of_legible hw h, settle_eq_search pairwise_marks]

/-! ## The search and the nesting -/

abbrev brackets (ps : List Piece) : List Bracket := ps.filterMap bracket?

theorem marks_append (name : Bytes) (ps qs : List Piece) : ∀ (offset : Nat),
    marks name offset (ps ++ qs) =
      marks name offset ps ++ marks name (offset + (join ps).length) qs := by
  induction ps with
  | nil => intro offset; rfl
  | cons p ps ih =>
    intro offset
    rw [List.cons_append, marks, ih, marks, join_cons, List.length_append, List.append_assoc,
      Nat.add_assoc]

/-- Blocks that close change the depth of the search by those that were open. -/
theorem search_marks (name : Bytes) {ps : List Piece} (ms : List Mark) :
    ∀ {names : List Bytes} (depth offset : Nat), Bracket.closes names (brackets ps) = true →
      Mark.search (depth + names.count name) (marks name offset ps ++ ms) =
        Mark.search depth ms := by
  induction ps with
  | nil =>
    intro names depth offset h
    cases names with
    | nil => rfl
    | cons m names => cases h
  | cons p ps ih =>
    intro names depth offset h
    rw [marks, List.append_assoc]
    cases hb : p.bracket? with
    | none =>
      have h1 : p.mark? name offset = none := by simp [mark?, hb]
      rw [brackets, List.filterMap_cons_none hb] at h
      rw [h1]
      exact ih depth _ h
    | some b =>
      rw [brackets, List.filterMap_cons_some hb] at h
      cases b with
      | opening n =>
        have h1 := ih depth (offset + p.bytes.length) (Bracket.closes_opening.1 h).2
        by_cases hn : n = name
        · subst hn
          rw [List.count_cons_self, ← Nat.add_assoc] at h1
          rw [mark?, if_pos hb]
          exact h1
        · rw [List.count_cons_of_ne hn] at h1
          have h2 : p.mark? name offset = none := by simp [mark?, hb, hn]
          rw [h2]
          exact h1
      | closing n =>
        cases names with
        | nil => cases h
        | cons m names =>
          obtain ⟨rfl, h2⟩ := Bracket.closes_closing.1 h
          have h1 := ih depth (offset + p.bytes.length) h2
          by_cases hn : m = name
          · subst hn
            rw [List.count_cons_self, ← Nat.add_assoc, mark?, if_neg (by rw [hb]; simp), if_pos hb]
            exact h1
          · rw [List.count_cons_of_ne hn]
            have h2 : p.mark? name offset = none := by simp [mark?, hb, hn]
            rw [h2]
            exact h1

/-- What the search finds is a closer of the name. -/
theorem exists_of_search {name : Bytes} {ps : List Piece} : ∀ {depth offset : Nat} {sp : Span},
    Mark.search depth (marks name offset ps) = some sp →
      ∃ inner p rest, ps = inner ++ p :: rest ∧ p.bracket? = some (.closing name) ∧
        sp = ⟨offset + (join inner).length, offset + (join inner).length + p.bytes.length⟩ := by
  induction ps with
  | nil => intro depth offset sp h; cases h
  | cons p ps ih =>
    intro depth offset sp h
    have step : ∀ {depth : Nat},
        Mark.search depth (marks name (offset + p.bytes.length) ps) = some sp →
          ∃ inner q rest, p :: ps = inner ++ q :: rest ∧ q.bracket? = some (.closing name) ∧
            sp = ⟨offset + (join inner).length,
              offset + (join inner).length + q.bytes.length⟩ := by
      intro depth h
      obtain ⟨inner, q, rest, rfl, h1, rfl⟩ := ih h
      refine ⟨p :: inner, q, rest, rfl, h1, ?_⟩
      rw [join_cons, List.length_append, Nat.add_assoc offset]
    rw [marks, mark?] at h
    split at h
    next => exact step h
    next =>
      split at h
      next hb =>
        cases depth with
        | zero =>
          cases h
          exact ⟨[], p, ps, rfl, hb, rfl⟩
        | succ depth => exact step h
      next => exact step h

theorem closing?_of_nested {name : Bytes} (hw : Word name) {inner rest : List Piece} {p : Piece}
    (h : Legible (inner ++ p :: rest)) (hp : p.bracket? = some (.closing name))
    (hi : Bracket.Nested (brackets inner)) :
    closing? name (join (inner ++ p :: rest)) =
      some ⟨(join inner).length, (join inner).length + p.bytes.length⟩ := by
  have h1 := search_marks name (marks name (0 + (join inner).length) (p :: rest)) 0 0 hi
  rw [closing?_eq_search hw h, marks_append]
  rw [List.count_nil, Nat.add_zero] at h1
  rw [h1, marks, mark?, if_neg (by rw [hp]; simp), if_pos hp, Nat.zero_add]
  rfl

theorem take_drop_join (inner : List Piece) (p : Piece) (rest : List Piece) :
    (join (inner ++ p :: rest)).take (join inner).length = join inner ∧
      (join (inner ++ p :: rest)).drop ((join inner).length + p.bytes.length) = join rest := by
  constructor
  · rw [join_append, List.take_left]
  · rw [join_append, join_cons, ← List.append_assoc, ← List.length_append, List.drop_left]

/-! ## What pieces build -/

section
variable {Context : Type} {functions : Functions Context}

inductive Builds (functions : Functions Context) : Nat → List Piece → Template.Fragment → Prop
  | nil (offset : Nat) : Builds functions offset [] ⟨[], []⟩
  | text {offset : Nat} {w : Bytes} {ps : List Piece} {f : Template.Fragment}
      (h : Builds functions (offset + w.length) ps f) :
      Builds functions offset (text w :: ps) (f.push w none)
  | remark {offset : Nat} {body : Bytes} {ps : List Piece} {f : Template.Fragment}
      (h : Builds functions offset ps f) : Builds functions offset (remark body :: ps) f
  | comment {offset : Nat} {interior spare : Bytes} {ps : List Piece} {f : Template.Fragment}
      (hk : (Tag.reading interior).kind = .comment) (h : Builds functions offset ps f) :
      Builds functions offset (tag interior spare :: ps) f
  | expression {offset : Nat} {interior spare : Bytes} {ps : List Piece} {f : Template.Fragment}
      (hk : (Tag.reading interior).kind = .expression) (h : Builds functions offset ps f) :
      Builds functions offset (tag interior spare :: ps)
        (f.push [] (some (Template.expressionNode functions (Tag.reading interior) offset)))
  | block {offset : Nat} {interior spare name : Bytes} {inner rest : List Piece} {p : Piece}
      {g f : Template.Fragment} (hk : (Tag.reading interior).kind = .opener)
      (hn : Template.blockName? (Tag.reading interior).content = some name)
      (hp : p.bracket? = some (.closing name)) (hi : Builds functions 0 inner g)
      (hf : Builds functions offset rest f) :
      Builds functions offset (tag interior spare :: (inner ++ p :: rest))
        (f.push [] (some (Template.blockNode functions (Tag.reading interior) offset g)))

theorem Builds.nested {offset : Nat} {ps : List Piece} {f : Template.Fragment}
    (h : Builds functions offset ps f) : Bracket.Nested (brackets ps) := by
  induction h with
  | nil => rfl
  | text _ ih => exact ih
  | remark _ ih => exact ih
  | @comment offset interior spare ps f hk _ ih =>
    have hb : (tag interior spare).bracket? = none := by simp [bracket?, Tag.bracket?, hk]
    rwa [brackets, List.filterMap_cons_none hb]
  | @expression offset interior spare ps f hk _ ih =>
    have hb : (tag interior spare).bracket? = none := by simp [bracket?, Tag.bracket?, hk]
    rwa [brackets, List.filterMap_cons_none hb]
  | @block offset interior spare name inner rest p g f hk hn hp _ _ ihi ihf =>
    rw [brackets, List.filterMap_cons_some (bracket?_of_opener spare hk hn),
      List.filterMap_append, List.filterMap_cons_some hp]
    exact Bracket.nested_block (Template.blockName?_ne_nil hn) ihi ihf

/-- A piece that is no bracket, before pieces that build something. -/
theorem Builds.exists_cons {offset : Nat} {p : Piece} {ps : List Piece} (hp : p.bracket? = none)
    (h : ∀ offset, ∃ f, Builds functions offset ps f) :
    ∃ f, Builds functions offset (p :: ps) f := by
  cases p with
  | text w =>
    obtain ⟨f, hf⟩ := h (offset + w.length)
    exact ⟨_, .text hf⟩
  | remark body =>
    obtain ⟨f, hf⟩ := h offset
    exact ⟨f, .remark hf⟩
  | tag interior spare =>
    obtain ⟨f, hf⟩ := h offset
    cases hk : (Tag.reading interior).kind with
    | comment => exact ⟨f, .comment hk hf⟩
    | expression => exact ⟨_, .expression hk hf⟩
    | opener => simp [bracket?, Tag.bracket?, hk] at hp
    | closer => simp [bracket?, Tag.bracket?, hk] at hp

theorem exists_of_opening {p : Piece} {name : Bytes} (hn : name ≠ [])
    (h : p.bracket? = some (.opening name)) :
    ∃ interior spare, p = tag interior spare ∧ (Tag.reading interior).kind = .opener ∧
      Template.blockName? (Tag.reading interior).content = some name := by
  cases p with
  | text w => cases h
  | remark body => cases h
  | tag interior spare =>
    simp only [bracket?, Tag.bracket?] at h
    split at h
    next hk =>
      refine ⟨interior, spare, rfl, hk, ?_⟩
      simp only [Option.some.injEq, Bracket.opening.injEq] at h
      cases hb : Template.blockName? (Tag.reading interior).content with
      | none =>
        rw [hb] at h
        exact absurd h.symm hn
      | some name' =>
        rw [hb] at h
        exact congrArg some h
    next => cases h
    next => cases h

/-- Pieces build something just when their brackets are nested. -/
theorem exists_builds_iff {offset : Nat} {ps : List Piece} :
    (∃ f, Builds functions offset ps f) ↔ Bracket.Nested (brackets ps) := by
  constructor
  · rintro ⟨f, h⟩
    exact h.nested
  · intro h
    have h1 : Bracket.Balanced bracket? ps := Bracket.balanced_iff.2 h
    clear h
    induction h1 generalizing offset with
    | nil => exact ⟨_, .nil offset⟩
    | leaf hp _ ih => exact Builds.exists_cons hp fun _ => ih
    | block hn ho hc _ _ ihi ihr =>
      obtain ⟨interior, spare, rfl, hk, h1⟩ := exists_of_opening hn ho
      obtain ⟨g, hg⟩ : ∃ g, Builds functions 0 _ g := ihi
      obtain ⟨f, hf⟩ : ∃ f, Builds functions offset _ f := ihr
      exact ⟨_, .block hk h1 hc hg hf⟩

/-! ## The text of pieces -/

theorem FitsTag.scan_eq {interior spare s : Bytes} (h : FitsTag interior spare s)
    (hk : (Tag.reading interior).kind ≠ .closer) :
    Tag.scan ((tag interior spare).bytes ++ s) =
      some { Tag.reading interior with after := s } := by
  rw [h.scan, h.after hk]

theorem before_reading (interior : Bytes) : (Tag.reading interior).before = [] :=
  Tag.ofInterior_before [] interior []

theorem map_push_nil (x : Except ParseError Template.Fragment) :
    x.map (Template.Fragment.push [] none) = x := by
  cases x <;> rfl

theorem fragment_text {w s : Bytes} {offset : Nat} (h : (text w).Fits s) :
    Template.fragment functions offset (w ++ s) =
      (Template.fragment functions (offset + w.length) s).map (.push w none) := by
  rcases h with h | ⟨h, rfl⟩
  · exact Template.fragment_append functions h s offset
  · have h1 : Tag.scan [] = none := by decide
    rw [List.append_nil, Template.fragment_of_none h, Template.fragment_of_none h1]
    simp [Except.map, Template.Fragment.push]

theorem fragment_remark {body s : Bytes} {offset : Nat} (h : Tag.Remark body) :
    Template.fragment functions offset ((remark body).bytes ++ s) =
      Template.fragment functions offset s := by
  rw [bytes, Template.fragment_of_comment (scan_remark h s) rfl]
  exact map_push_nil _

section
variable {interior spare s : Bytes} {offset : Nat}

theorem fragment_comment (h : FitsTag interior spare s)
    (hk : (Tag.reading interior).kind = .comment) :
    Template.fragment functions offset ((tag interior spare).bytes ++ s) =
      Template.fragment functions offset s := by
  rw [Template.fragment_of_comment (h.scan_eq (by rw [hk]; decide)) hk]
  simp only [Tag.position, before_reading, List.length_nil, Nat.add_zero, map_push_nil]

theorem fragment_expression (h : FitsTag interior spare s)
    (hk : (Tag.reading interior).kind = .expression) :
    Template.fragment functions offset ((tag interior spare).bytes ++ s) =
      (Template.fragment functions offset s).map
        (.push [] (some (Template.expressionNode functions (Tag.reading interior) offset))) := by
  rw [Template.fragment_of_expression (h.scan_eq (by rw [hk]; decide)) hk]
  simp only [Tag.position, before_reading, List.length_nil, Nat.add_zero]
  rfl

theorem fragment_closer (h : FitsTag interior spare s)
    (hk : (Tag.reading interior).kind = .closer) (f : Template.Fragment) :
    Template.fragment functions offset ((tag interior spare).bytes ++ s) ≠ .ok f := by
  have h1 : (Tag.ofInterior [] interior (spare ++ s)).kind = .closer := by
    rw [Tag.ofInterior_eq]
    exact hk
  rw [Template.fragment_of_closer h.scan h1]
  simp

theorem fragment_opener {name : Bytes} (h : FitsTag interior spare s)
    (hk : (Tag.reading interior).kind = .opener)
    (hn : Template.blockName? (Tag.reading interior).content = some name) {f : Template.Fragment}
    (hf : Template.fragment functions offset ((tag interior spare).bytes ++ s) = .ok f) :
    ∃ closer, closing? name s = some closer := by
  cases hc : closing? name s with
  | some closer => exact ⟨closer, rfl⟩
  | none =>
    rw [Template.fragment_of_unclosed (h.scan_eq (by rw [hk]; decide)) hk hn hc] at hf
    cases hf

theorem fragment_block {name : Bytes} {closer : Span} (h : FitsTag interior spare s)
    (hk : (Tag.reading interior).kind = .opener)
    (hn : Template.blockName? (Tag.reading interior).content = some name)
    (hc : closing? name s = some closer) :
    Template.fragment functions offset ((tag interior spare).bytes ++ s) =
      (Template.fragment functions 0 (s.take closer.start)).bind fun g =>
        (Template.fragment functions offset (s.drop closer.stop)).map
          (.push [] (some (Template.blockNode functions (Tag.reading interior) offset g))) := by
  rw [Template.fragment_of_block (h.scan_eq (by rw [hk]; decide)) hk hn hc]
  simp only [Tag.position, before_reading, List.length_nil, Nat.add_zero]
  rfl

end

/-- The name of an opener that fits is a word. -/
theorem FitsTag.word {interior spare s name : Bytes} (h : FitsTag interior spare s)
    (hk : (Tag.reading interior).kind = .opener)
    (hn : Template.blockName? (Tag.reading interior).content = some name) : Word name := by
  have h1 := h.recognised
  rw [Recognised, hk] at h1
  obtain ⟨name', hn', hw, -⟩ := h1
  rw [hn] at hn'
  cases hn'
  exact hw

theorem Builds.fragment {offset : Nat} {ps : List Piece} {f : Template.Fragment}
    (h : Builds functions offset ps f) (hl : Legible ps) :
    Template.fragment functions offset (join ps) = .ok f := by
  induction h with
  | nil offset => exact Template.fragment_of_none (by decide)
  | text _ ih =>
    rw [join_cons, bytes, fragment_text hl.1, ih hl.2]
    rfl
  | remark _ ih => rw [join_cons, fragment_remark hl.1, ih hl.2]
  | comment hk _ ih => rw [join_cons, fragment_comment hl.1 hk, ih hl.2]
  | expression hk _ ih =>
    rw [join_cons, fragment_expression hl.1 hk, ih hl.2]
    rfl
  | @block offset interior spare name inner rest p g f hk hn hp hi _ ihi ihf =>
    have h1 : FitsTag interior spare (join (inner ++ p :: rest)) := hl.1
    have hc := closing?_of_nested (h1.word hk hn) hl.2 hp hi.nested
    obtain ⟨e1, e2⟩ := take_drop_join inner p rest
    rw [join_cons, fragment_block h1 hk hn hc, e1, e2, ihi hl.2.left, ihf hl.2.right.2]
    rfl

/-- What compiles was built. The induction is on the number of pieces: a block leaves fewer on
either side of its closer. -/
theorem builds_of_fragment (k : Nat) : ∀ {ps : List Piece} {offset : Nat} {f : Template.Fragment},
    ps.length ≤ k → Legible ps → Template.fragment functions offset (join ps) = .ok f →
      Builds functions offset ps f := by
  induction k with
  | zero =>
    intro ps offset f hk _ h
    obtain rfl : ps = [] := List.length_eq_zero_iff.1 (by omega)
    rw [join_nil, Template.fragment_of_none (by decide)] at h
    cases h
    exact .nil offset
  | succ k ih =>
    intro ps offset f hk hl h
    cases ps with
    | nil =>
      rw [join_nil, Template.fragment_of_none (by decide)] at h
      cases h
      exact .nil offset
    | cons p ps =>
      rw [List.length_cons] at hk
      have hk' : ps.length ≤ k := by omega
      rw [join_cons] at h
      cases p with
      | text w =>
        rw [bytes, fragment_text hl.1] at h
        obtain ⟨g, hg, rfl⟩ := Template.exists_of_map_eq_ok h
        exact .text (ih hk' hl.2 hg)
      | remark body =>
        rw [fragment_remark hl.1] at h
        exact .remark (ih hk' hl.2 h)
      | tag interior spare =>
        have h1 : FitsTag interior spare (join ps) := hl.1
        cases hc : (Tag.reading interior).kind with
        | comment =>
          rw [fragment_comment h1 hc] at h
          exact .comment hc (ih hk' hl.2 h)
        | expression =>
          rw [fragment_expression h1 hc] at h
          obtain ⟨g, hg, rfl⟩ := Template.exists_of_map_eq_ok h
          exact .expression hc (ih hk' hl.2 hg)
        | closer => exact absurd h (fragment_closer h1 hc f)
        | opener =>
          have h2 := h1.recognised
          rw [Recognised, hc] at h2
          obtain ⟨name, hn, hw, -⟩ := h2
          obtain ⟨closer, hcl⟩ := fragment_opener h1 hc hn h
          have hs := hcl
          rw [closing?_eq_search hw hl.2] at hs
          obtain ⟨inner, p, rest, rfl, hp, rfl⟩ := exists_of_search hs
          obtain ⟨e1, e2⟩ := take_drop_join inner p rest
          rw [List.length_append, List.length_cons] at hk'
          rw [fragment_block h1 hc hn hcl] at h
          simp only [Nat.zero_add] at h
          rw [e1, e2] at h
          cases hg : Template.fragment functions 0 (join inner) with
          | error e => rw [hg] at h; cases h
          | ok g =>
            rw [hg] at h
            obtain ⟨f, hf, rfl⟩ := Template.exists_of_map_eq_ok h
            exact .block hc hn hp (ih (by omega) hl.2.left hg) (ih (by omega) hl.2.right.2 hf)

/-- The text of legible pieces compiles to what the pieces build. -/
theorem Legible.fragment_eq_ok_iff {offset : Nat} {ps : List Piece} {f : Template.Fragment}
    (hl : Legible ps) :
    Template.fragment functions offset (join ps) = .ok f ↔ Builds functions offset ps f :=
  ⟨builds_of_fragment ps.length (Nat.le_refl _) hl, fun h => h.fragment hl⟩

end

end ThemeTemplates.Piece
