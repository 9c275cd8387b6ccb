import ThemeTemplates.Template

/-! # What compiling a fragment can do

* `Compiles functions offset src f`: from `src`, whose first byte has the position `offset`, comes
  the fragment `f`. Each rule takes the first tag off, and the rule of a block compiles the text up
  to the closer by itself.
* `compiles_iff`: these are the successful compilations, so what a compilation keeps is shown once
  for each rule.
* `fragment_of_none` and its companions say what happens at each kind of tag, failure included.
-/

namespace ThemeTemplates.Template

set_option autoImplicit false

variable {Context : Type} {functions : Functions Context} {offset : Nat} {src : Bytes} {t : Tag}

/-! ## One tag -/

theorem fragment_of_none (h : Tag.scan src = none) :
    fragment functions offset src = .ok ⟨src, []⟩ := by
  rw [fragment]
  split
  next => rfl
  next t h1 => rw [h] at h1; cases h1

/-- The node of an expression. -/
def expressionNode (functions : Functions Context) (t : Tag) (position : Nat) : Node :=
  Node.ofTag functions t.content t.unescaped position [] [] none

/-- The node of a block, from its opener and its compiled body. -/
def blockNode (functions : Functions Context) (t : Tag) (position : Nat) (inner : Fragment) : Node :=
  let body := Block.splitElse inner.text inner.nodes
  Node.ofTag functions t.content t.unescaped position body.block body.children body.elseBranch

theorem fragment_of_some (h : Tag.scan src = some t) :
    fragment functions offset src =
      match t.kind with
      | .comment => (fragment functions (offset + t.position) t.after).map (.push t.before none)
      | .closer => .error (.unbalanced t.content t.after)
      | .expression => (fragment functions (offset + t.position) t.after).map
          (.push t.before (some (expressionNode functions t (offset + t.position))))
      | .opener =>
        match blockName? t.content with
        | none => .error .emptyBlockName
        | some name =>
          match Block.closing? name t.after with
          | none => .error (.unbalanced name t.after)
          | some closer =>
            (fragment functions 0 (t.after.take closer.start)).bind fun inner =>
              (fragment functions (offset + t.position) (t.after.drop closer.stop)).map
                (.push t.before (some (blockNode functions t (offset + t.position) inner))) := by
  rw [fragment]
  split
  next h1 => rw [h] at h1; cases h1
  next t' h1 =>
    rw [h] at h1
    cases h1
    cases t.kind with
    | opener =>
      cases blockName? t.content with
      | none => rfl
      | some name =>
        cases hc : Block.closing? name t.after with
        | none => simp only [hc]
        | some closer =>
          simp only [hc]
          cases fragment functions 0 (t.after.take closer.start) <;> rfl
    | _ => rfl

theorem fragment_of_comment (h : Tag.scan src = some t) (hk : t.kind = .comment) :
    fragment functions offset src =
      (fragment functions (offset + t.position) t.after).map (.push t.before none) := by
  rw [fragment_of_some h, hk]

theorem fragment_of_closer (h : Tag.scan src = some t) (hk : t.kind = .closer) :
    fragment functions offset src = .error (.unbalanced t.content t.after) := by
  rw [fragment_of_some h, hk]

theorem fragment_of_expression (h : Tag.scan src = some t) (hk : t.kind = .expression) :
    fragment functions offset src =
      (fragment functions (offset + t.position) t.after).map
        (.push t.before (some (expressionNode functions t (offset + t.position)))) := by
  rw [fragment_of_some h, hk]

theorem fragment_of_unnamed (h : Tag.scan src = some t) (hk : t.kind = .opener)
    (hn : blockName? t.content = none) :
    fragment functions offset src = .error .emptyBlockName := by
  rw [fragment_of_some h, hk]
  simp only [hn]

theorem fragment_of_unclosed {name : Bytes} (h : Tag.scan src = some t) (hk : t.kind = .opener)
    (hn : blockName? t.content = some name) (hc : Block.closing? name t.after = none) :
    fragment functions offset src = .error (.unbalanced name t.after) := by
  rw [fragment_of_some h, hk]
  simp only [hn, hc]

theorem fragment_of_block {name : Bytes} {closer : Span} (h : Tag.scan src = some t)
    (hk : t.kind = .opener) (hn : blockName? t.content = some name)
    (hc : Block.closing? name t.after = some closer) :
    fragment functions offset src =
      (fragment functions 0 (t.after.take closer.start)).bind fun inner =>
        (fragment functions (offset + t.position) (t.after.drop closer.stop)).map
          (.push t.before (some (blockNode functions t (offset + t.position) inner))) := by
  rw [fragment_of_some h, hk]
  simp only [hn, hc]

/-! ## A change of each node -/

def Fragment.mapNodes (g : Node → Node) (f : Fragment) : Fragment := ⟨f.text, f.nodes.map g⟩

/-- To put a node in front and to change the nodes may change places. -/
theorem map_push_mapNodes (g : Node → Node) (before : Bytes) (node : Option Node)
    (x : Except ParseError Fragment) :
    (x.map (Fragment.push before node)).map (Fragment.mapNodes g) =
      (x.map (Fragment.mapNodes g)).map (Fragment.push before (node.map g)) := by
  cases x with
  | error e => rfl
  | ok f =>
    show Except.ok _ = Except.ok _
    simp only [Fragment.push, Fragment.mapNodes, List.map_append, Option.toList_map]

/-! ## Successful compilations -/

/-- `f` is what compiling `src` gives. -/
inductive Compiles (functions : Functions Context) : Nat → Bytes → Fragment → Prop
  | literal {offset : Nat} {src : Bytes} (hs : Tag.scan src = none) :
      Compiles functions offset src ⟨src, []⟩
  | comment {offset : Nat} {src : Bytes} {t : Tag} {f : Fragment} (hs : Tag.scan src = some t)
      (hk : t.kind = .comment) (hf : Compiles functions (offset + t.position) t.after f) :
      Compiles functions offset src (f.push t.before none)
  | expression {offset : Nat} {src : Bytes} {t : Tag} {f : Fragment} (hs : Tag.scan src = some t)
      (hk : t.kind = .expression) (hf : Compiles functions (offset + t.position) t.after f) :
      Compiles functions offset src
        (f.push t.before (some (expressionNode functions t (offset + t.position))))
  | block {offset : Nat} {src : Bytes} {t : Tag} {name : Bytes} {closer : Span}
      {inner f : Fragment} (hs : Tag.scan src = some t) (hk : t.kind = .opener)
      (hn : blockName? t.content = some name) (hc : Block.closing? name t.after = some closer)
      (hi : Compiles functions 0 (t.after.take closer.start) inner)
      (hf : Compiles functions (offset + t.position) (t.after.drop closer.stop) f) :
      Compiles functions offset src
        (f.push t.before (some (blockNode functions t (offset + t.position) inner)))

theorem fragment_of_compiles {f : Fragment} (h : Compiles functions offset src f) :
    fragment functions offset src = .ok f := by
  induction h with
  | literal hs => exact fragment_of_none hs
  | comment hs hk _ ih => rw [fragment_of_comment hs hk, ih]; rfl
  | expression hs hk _ ih => rw [fragment_of_expression hs hk, ih]; rfl
  | block hs hk hn hc _ _ ihi ihf => rw [fragment_of_block hs hk hn hc, ihi, ihf]; rfl

theorem exists_of_map_eq_ok {ε α β : Type} {x : Except ε α} {g : α → β} {b : β}
    (h : x.map g = .ok b) : ∃ a, x = .ok a ∧ g a = b := by
  cases x with
  | error e => cases h
  | ok a => exact ⟨a, rfl, by cases h; rfl⟩

theorem exists_of_toOption {ε α β : Type} {x : Except ε α} {g : α → β} {b : β}
    (h : x.toOption.map g = some b) : ∃ a, x = .ok a ∧ g a = b := by
  cases x with
  | error e => cases h
  | ok a => exact ⟨a, rfl, Option.some.inj h⟩

theorem compiles_of_fragment (n : Nat) : ∀ {offset : Nat} {src : Bytes} {f : Fragment},
    src.length ≤ n → fragment functions offset src = .ok f → Compiles functions offset src f := by
  induction n with
  | zero =>
    intro offset src f hn h
    obtain rfl : src = [] := List.length_eq_zero_iff.1 (by omega)
    have hs : Tag.scan [] = none := by decide
    rw [fragment_of_none hs] at h
    cases h
    exact .literal hs
  | succ n ih =>
    intro offset src f hn h
    cases hs : Tag.scan src with
    | none =>
      rw [fragment_of_none hs] at h
      cases h
      exact .literal hs
    | some t =>
      have h1 := Tag.length_after_of_scan hs
      cases hk : t.kind with
      | comment =>
        rw [fragment_of_comment hs hk] at h
        obtain ⟨g, hg, rfl⟩ := exists_of_map_eq_ok h
        exact .comment hs hk (ih (by omega) hg)
      | closer =>
        rw [fragment_of_closer hs hk] at h
        cases h
      | expression =>
        rw [fragment_of_expression hs hk] at h
        obtain ⟨g, hg, rfl⟩ := exists_of_map_eq_ok h
        exact .expression hs hk (ih (by omega) hg)
      | opener =>
        cases hb : blockName? t.content with
        | none =>
          rw [fragment_of_unnamed hs hk hb] at h
          cases h
        | some name =>
          cases hc : Block.closing? name t.after with
          | none =>
            rw [fragment_of_unclosed hs hk hb hc] at h
            cases h
          | some closer =>
            rw [fragment_of_block hs hk hb hc] at h
            cases hi : fragment functions 0 (t.after.take closer.start) with
            | error e => rw [hi] at h; cases h
            | ok inner =>
              rw [hi] at h
              obtain ⟨g, hg, rfl⟩ := exists_of_map_eq_ok h
              have h2 : (t.after.take closer.start).length ≤ n := by
                rw [List.length_take]; omega
              have h3 : (t.after.drop closer.stop).length ≤ n := by
                rw [List.length_drop]; omega
              exact .block hs hk hb hc (ih h2 hi) (ih h3 hg)

/-- The rules describe compilation exactly. -/
theorem compiles_iff {f : Fragment} :
    Compiles functions offset src f ↔ fragment functions offset src = .ok f :=
  ⟨fragment_of_compiles, compiles_of_fragment src.length (Nat.le_refl _)⟩

/-- The root of a template over the fragment that its source gives. -/
def rootNode (functions : Functions Context) (name : String) (f : Fragment) : Node :=
  { name, function := functions.resolve name, unescaped := false, position := 0, block := f.text,
    arguments := [], children := f.nodes }

theorem compile_eq (name : String) :
    compile functions src name = (fragment functions 0 src).map (rootNode functions name) := rfl

theorem compile_eq_ok_iff {name : String} {root : Node} :
    compile functions src name = .ok root ↔
      ∃ f, Compiles functions 0 src f ∧ root = rootNode functions name f := by
  rw [compile_eq]
  constructor
  · intro h
    obtain ⟨f, hf, rfl⟩ := exists_of_map_eq_ok h
    exact ⟨f, compiles_iff.2 hf, rfl⟩
  · rintro ⟨f, hf, rfl⟩
    rw [compiles_iff.1 hf]
    rfl

end ThemeTemplates.Template
