import ThemeTemplates.Proofs.Excision
import ThemeTemplates.Proofs.Pairing

/-! # The passes of a compilation

A compilation cuts one tag or one block out of its text in each pass, and a block hands its body to
a compilation of its own.

* `Template.pass src` is what the first pass over a text does, `sweep_eq` says that a compilation
  is made of such passes.
* `length_of_pass_tag` and `length_of_pass_block` say how much shorter the texts become that a pass
  goes on with, so what runs along the passes ends.
* `Swept functions src f`: the passes over `src` leave the fragment `f`. What a successful
  compilation keeps is shown for each kind of pass (`swept_of_fragment`).
-/

namespace ThemeTemplates.Template

set_option autoImplicit false

variable {Context : Type} {functions : Functions Context} {src body rest : Bytes} {t : Tag}

/-! ## One pass -/

/-- What a pass does with the first tag of a text. -/
inductive Pass
  /-- The text has no tag. -/
  | done
  | failed (e : ParseError)
  /-- A comment or an expression is cut out. -/
  | tag (t : Tag) (rest : Bytes)
  /-- A block is cut out, and its body is compiled by itself. -/
  | block (t : Tag) (body rest : Bytes)
  deriving DecidableEq

def pass (src : Bytes) : Pass :=
  match Tag.scan src with
  | none => .done
  | some t =>
    match t.kind with
    | .comment => .tag t t.excise
    | .expression => .tag t t.excise
    | .closer => .failed (.unbalanced t.content t.after)
    | .opener =>
      match blockName? t.content with
      | none => .failed .emptyBlockName
      | some name =>
        match Block.closing? name (t.excise.drop t.position) with
        | none => .failed (.unbalanced name (t.excise.drop t.position))
        | some closer =>
          .block t ((t.excise.drop t.position).take closer.start)
            (t.excise.take t.position ++ (t.excise.drop t.position).drop closer.stop)

/-- The node that a tag leaves: an expression leaves one, a comment does not. -/
def tagNode? (functions : Functions Context) (t : Tag) : Option Node :=
  if t.kind = .expression then some (expressionNode functions t t.position) else none

/-- A compilation is a pass, the compilation of the body that the pass hands on, and that of the
text it leaves. -/
theorem sweep_eq (functions : Functions Context) (src : Bytes) : sweep functions src =
    match pass src with
    | .done => .ok ⟨src, []⟩
    | .failed e => .error e
    | .tag t rest => (sweep functions rest).map (.push [] (tagNode? functions t))
    | .block t body rest => (sweep functions body).bind fun inner =>
        (sweep functions rest).map (.push [] (some (blockNode functions t t.position inner))) := by
  rw [sweep, pass]
  cases hs : Tag.scan src with
  | none => rfl
  | some t =>
    simp only
    cases hk : t.kind with
    | comment =>
      simp only [tagNode?, hk]
      cases sweep functions t.excise <;> rfl
    | closer => rfl
    | expression => simp only [tagNode?, hk, if_true]
    | opener =>
      cases blockName? t.content with
      | none => rfl
      | some name =>
        cases hc : Block.closing? name (t.excise.drop t.position) with
        | none => simp only [hc]
        | some closer =>
          simp only [hc]
          cases sweep functions ((t.excise.drop t.position).take closer.start) <;> rfl

/-! ## What a pass goes on with -/

/-- What a pass comes to, and the tag that makes it so. -/
theorem pass_cases (src : Bytes) :
    (pass src = .done ∧ Tag.scan src = none) ∨ (∃ e, pass src = .failed e) ∨
    (∃ t, pass src = .tag t t.excise ∧ Tag.scan src = some t ∧
      (t.kind = .comment ∨ t.kind = .expression)) ∨
    ∃ t name closer, pass src = .block t (t.after.take closer.start)
        (t.before ++ t.after.drop closer.stop) ∧ Tag.scan src = some t ∧ t.kind = .opener ∧
      blockName? t.content = some name ∧ Block.closing? name t.after = some closer := by
  unfold pass
  cases hs : Tag.scan src with
  | none => exact .inl ⟨rfl, rfl⟩
  | some t =>
    simp only
    cases hk : t.kind with
    | comment => exact .inr (.inr (.inl ⟨t, rfl, rfl, .inl hk⟩))
    | expression => exact .inr (.inr (.inl ⟨t, rfl, rfl, .inr hk⟩))
    | closer => exact .inr (.inl ⟨_, rfl⟩)
    | opener =>
      cases hn : blockName? t.content with
      | none => exact .inr (.inl ⟨_, rfl⟩)
      | some name =>
        have e1 : t.excise.drop t.position = t.after := List.drop_left
        have e2 : t.excise.take t.position = t.before := List.take_left
        simp only [e1, e2]
        cases hc : Block.closing? name t.after with
        | none => exact .inr (.inl ⟨_, rfl⟩)
        | some closer => exact .inr (.inr (.inr ⟨t, name, closer, rfl, rfl, hk, hn, hc⟩))

theorem scan_of_pass_done (h : pass src = .done) : Tag.scan src = none := by
  rcases pass_cases src with ⟨-, h1⟩ | ⟨e, h1⟩ | ⟨t, h1, -⟩ | ⟨t, name, closer, h1, -⟩
  · exact h1
  all_goals rw [h1] at h; cases h

theorem scan_of_pass_tag (h : pass src = .tag t rest) :
    Tag.scan src = some t ∧ rest = t.excise ∧ (t.kind = .comment ∨ t.kind = .expression) := by
  rcases pass_cases src with ⟨h1, -⟩ | ⟨e, h1⟩ | ⟨t', h1, hs, hk⟩ | ⟨t', name, closer, h1, -⟩
  all_goals rw [h1] at h; cases h
  exact ⟨hs, rfl, hk⟩

theorem scan_of_pass_block (h : pass src = .block t body rest) :
    Tag.scan src = some t ∧ t.kind = .opener ∧ ∃ name closer, blockName? t.content = some name ∧
      Block.closing? name t.after = some closer ∧ body = t.after.take closer.start ∧
      rest = t.before ++ t.after.drop closer.stop := by
  rcases pass_cases src with ⟨h1, -⟩ | ⟨e, h1⟩ | ⟨t', h1, -⟩ | ⟨t', name, closer, h1, hs, hk, hn, hc⟩
  all_goals rw [h1] at h; cases h
  exact ⟨hs, hk, name, closer, hn, hc, rfl, rfl⟩

theorem length_of_pass_tag (h : pass src = .tag t rest) : rest.length + 4 ≤ src.length := by
  obtain ⟨h1, rfl, -⟩ := scan_of_pass_tag h
  have h2 := Tag.length_of_scan h1
  rw [Tag.excise, List.length_append]
  omega

/-- A body and the text that is left are separate parts of the text. -/
theorem length_of_pass_block (h : pass src = .block t body rest) :
    body.length + rest.length + 4 ≤ src.length := by
  obtain ⟨h1, -, name, closer, -, hc, rfl, rfl⟩ := scan_of_pass_block h
  have h2 := Tag.length_of_scan h1
  have h3 := Block.bounds_of_closing? hc
  rw [List.length_take, List.length_append, List.length_drop]
  omega

/-! ## What a compilation makes of a pass -/

theorem fragment_of_pass_tag (functions : Functions Context) (h : pass src = .tag t rest) :
    fragment functions 0 src =
      (fragment functions 0 rest).map (.push [] (tagNode? functions t)) := by
  rw [← sweep_eq_fragment, ← sweep_eq_fragment, sweep_eq, h]

theorem fragment_of_pass_block (functions : Functions Context) (h : pass src = .block t body rest) :
    fragment functions 0 src = (fragment functions 0 body).bind fun inner =>
      (fragment functions 0 rest).map (.push [] (some (blockNode functions t t.position inner))) := by
  rw [← sweep_eq_fragment, ← sweep_eq_fragment, ← sweep_eq_fragment, sweep_eq, h]

/-! ## All passes of a successful compilation -/

/-- The passes over `src`, and over the bodies that they hand on, leave `f`. -/
inductive Swept (functions : Functions Context) : Bytes → Fragment → Prop
  | done {src : Bytes} (h : pass src = .done) : Swept functions src ⟨src, []⟩
  | tag {src rest : Bytes} {t : Tag} {f : Fragment} (h : pass src = .tag t rest)
      (hf : Swept functions rest f) : Swept functions src (f.push [] (tagNode? functions t))
  | block {src body rest : Bytes} {t : Tag} {inner f : Fragment} (h : pass src = .block t body rest)
      (hi : Swept functions body inner) (hf : Swept functions rest f) :
      Swept functions src (f.push [] (some (blockNode functions t t.position inner)))

theorem swept_of_sweep (n : Nat) : ∀ {src : Bytes} {f : Fragment},
    src.length ≤ n → sweep functions src = .ok f → Swept functions src f := by
  induction n with
  | zero =>
    intro src f hn h
    obtain rfl : src = [] := List.length_eq_zero_iff.1 (by omega)
    have hp : pass [] = .done := rfl
    rw [sweep_eq, hp] at h
    cases h
    exact .done hp
  | succ n ih =>
    intro src f hn h
    rw [sweep_eq] at h
    cases hp : pass src with
    | done =>
      rw [hp] at h
      cases h
      exact .done hp
    | failed e =>
      rw [hp] at h
      cases h
    | tag t rest =>
      rw [hp] at h
      have h1 := length_of_pass_tag hp
      obtain ⟨g, hg, rfl⟩ := exists_of_map_eq_ok h
      exact .tag hp (ih (by omega) hg)
    | block t body rest =>
      rw [hp] at h
      have h1 := length_of_pass_block hp
      cases hi : sweep functions body with
      | error e =>
        simp only [hi] at h
        cases h
      | ok inner =>
        simp only [hi] at h
        obtain ⟨g, hg, rfl⟩ := exists_of_map_eq_ok h
        exact .block hp (ih (by omega) hi) (ih (by omega) hg)

theorem swept_of_fragment {f : Fragment} (h : fragment functions 0 src = .ok f) :
    Swept functions src f :=
  swept_of_sweep src.length (Nat.le_refl _) (by rw [sweep_eq_fragment, h])

theorem Swept.fragment_eq {f : Fragment} (h : Swept functions src f) :
    fragment functions 0 src = .ok f := by
  induction h with
  | done h => rw [← sweep_eq_fragment, sweep_eq, h]
  | tag h _ ih =>
    rw [fragment_of_pass_tag functions h, ih]
    rfl
  | block h _ _ ihi ihf =>
    rw [fragment_of_pass_block functions h, ihi, ihf]
    rfl

theorem exists_swept {name : String} {root : Node} (h : compile functions src name = .ok root) :
    ∃ f, Swept functions src f ∧ root = rootNode functions name f := by
  rw [compile_eq] at h
  obtain ⟨f, hf, rfl⟩ := exists_of_map_eq_ok h
  exact ⟨f, swept_of_fragment hf, rfl⟩

end ThemeTemplates.Template
