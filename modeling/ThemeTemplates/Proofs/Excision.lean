import ThemeTemplates.Proofs.Compiles
import ThemeTemplates.Proofs.Marks

/-! # Cutting tags out one by one

`Template.sweep` compiles a text the way one edits it: scan the whole text, cut the tag or the block
out, and scan what is left from its start again. `fragment` only reads on behind each tag, so both
agree only if cutting never makes a tag out of the text before it. It does not: the text before the
first opening braces stays literal whatever moves up behind it (`Tag.scan_append`), and so
`sweep_eq_fragment`.
-/

namespace ThemeTemplates

set_option autoImplicit false

namespace Tag

/-- The tag with more text before it. -/
def behind (w : Bytes) (t : Tag) : Tag := { t with before := w ++ t.before }

theorem ofInterior_behind (w before interior after : Bytes) :
    ofInterior (w ++ before) interior after = (ofInterior before interior after).behind w := by
  unfold ofInterior
  split <;> rfl

/-- Literal text in front of a text moves its first tag and does nothing else. -/
theorem scan_append {w : Bytes} (hw : Literal w) (s : Bytes) :
    scan (w ++ s) = (scan s).map (behind w) := by
  unfold scan
  rw [Bytes.cut?_append (hw.passes s)]
  cases Bytes.cut? openMark s with
  | none => rfl
  | some p =>
    obtain ⟨before, inner⟩ := p
    simp only [Option.map_some]
    cases longComment? inner with
    | some q => rfl
    | none =>
      cases Bytes.cut? closeMark inner with
      | none => rfl
      | some q => simp only [Option.map_some, ofInterior_behind]

/-- The text before a tag is literal. -/
theorem literal_before {src : Bytes} {t : Tag} (h : scan src = some t) : Literal t.before := by
  unfold scan at h
  split at h
  next => cases h
  next before inner h1 =>
    have h2 := literal_of_passes (Bytes.passes_of_cut? h1)
    split at h
    next => cases h; exact h2
    next =>
      obtain ⟨⟨interior, after⟩, -, rfl⟩ := Option.map_eq_some_iff.1 h
      rwa [ofInterior_before]

end Tag

namespace Template

variable {Context : Type}

/-- Compiles a text by cutting its tags out of it. -/
def sweep (functions : Functions Context) (src : Bytes) : Except ParseError Fragment :=
  match _h : Tag.scan src with
  | none => .ok ⟨src, []⟩
  | some t =>
    match t.kind with
    | .comment => sweep functions t.excise
    | .closer => .error (.unbalanced t.content t.after)
    | .expression =>
      (sweep functions t.excise).map (.push [] (some (expressionNode functions t t.position)))
    | .opener =>
      match blockName? t.content with
      | none => .error .emptyBlockName
      | some name =>
        let tail := t.excise.drop t.position
        match Block.closing? name tail with
        | none => .error (.unbalanced name tail)
        | some closer =>
          match sweep functions (tail.take closer.start) with
          | .error e => .error e
          | .ok inner =>
            (sweep functions (t.excise.take t.position ++ tail.drop closer.stop)).map
              (.push [] (some (blockNode functions t t.position inner)))
termination_by src.length
decreasing_by
  · exact Tag.length_excise_of_scan _h
  · exact Tag.length_excise_of_scan _h
  · have h1 := Tag.length_excise_of_scan _h
    rw [List.length_take, List.length_drop]
    omega
  · have h1 := Tag.length_excise_of_scan _h
    rw [List.length_append, List.length_take, List.length_drop, List.length_drop]
    omega

theorem map_push_append (w before : Bytes) (node : Option Node) (x : Except ParseError Fragment) :
    (x.map (Fragment.push before node)).map (Fragment.push w none) =
      x.map (Fragment.push (w ++ before) node) := by
  cases x with
  | error e => rfl
  | ok f => simp [Except.map, Fragment.push]

/-- Literal text in front of a text comes out in front of its fragment. -/
theorem fragment_append (functions : Functions Context) {w : Bytes} (hw : Tag.Literal w) (s : Bytes)
    (offset : Nat) : fragment functions offset (w ++ s) =
      (fragment functions (offset + w.length) s).map (Fragment.push w none) := by
  cases ht : Tag.scan s with
  | none =>
    have h1 : Tag.scan (w ++ s) = none := by rw [Tag.scan_append hw, ht]; rfl
    rw [fragment_of_none h1, fragment_of_none ht]
    rfl
  | some t =>
    have h1 : Tag.scan (w ++ s) = some (t.behind w) := by rw [Tag.scan_append hw, ht]; rfl
    have e : offset + (t.behind w).position = offset + w.length + t.position := by
      rw [Nat.add_assoc]
      exact congrArg (offset + ·) List.length_append
    cases hk : t.kind with
    | comment =>
      rw [fragment_of_comment h1 hk, fragment_of_comment ht hk, map_push_append, e]
      rfl
    | closer =>
      rw [fragment_of_closer h1 hk, fragment_of_closer ht hk]
      rfl
    | expression =>
      rw [fragment_of_expression h1 hk, fragment_of_expression ht hk, map_push_append, e]
      rfl
    | opener =>
      cases hn : blockName? t.content with
      | none =>
        rw [fragment_of_unnamed h1 hk hn, fragment_of_unnamed ht hk hn]
        rfl
      | some name =>
        cases hc : Block.closing? name t.after with
        | none =>
          rw [fragment_of_unclosed h1 hk hn hc, fragment_of_unclosed ht hk hn hc]
          rfl
        | some closer =>
          rw [fragment_of_block h1 hk hn hc, fragment_of_block ht hk hn hc, e]
          have e1 : (t.behind w).after = t.after := rfl
          rw [e1]
          cases fragment functions 0 (t.after.take closer.start) with
          | error e => rfl
          | ok inner => exact (map_push_append _ _ _ _).symm

theorem push_push (w before : Bytes) (node : Option Node) (f : Fragment) :
    (f.push before node).push w none = (f.push (w ++ before) none).push [] node := by
  simp [Fragment.push]

theorem map_push_map_push (w before : Bytes) (node : Option Node) (x : Except ParseError Fragment) :
    (x.map (Fragment.push before node)).map (Fragment.push w none) =
      (x.map (Fragment.push (w ++ before) none)).map (Fragment.push [] node) := by
  cases x with
  | error e => rfl
  | ok f => simp only [Except.map, push_push]

/-- Cutting out of a text that starts with literal text. The induction is on the text behind it. -/
theorem sweep_append (functions : Functions Context) (n : Nat) : ∀ {w s : Bytes},
    s.length ≤ n → Tag.Literal w →
      sweep functions (w ++ s) = (fragment functions w.length s).map (.push w none) := by
  induction n with
  | zero =>
    intro w s hn hw
    obtain rfl : s = [] := List.length_eq_zero_iff.1 (by omega)
    have hs : Tag.scan [] = none := by decide
    rw [fragment_of_none hs, sweep]
    split
    next => rfl
    next t h =>
      rw [Tag.scan_append hw, hs] at h
      cases h
  | succ n ih =>
    intro w s hn hw
    rw [sweep]
    split
    next h =>
      rw [Tag.scan_append hw, Option.map_eq_none_iff] at h
      rw [fragment_of_none h]
      rfl
    next t' h =>
      rw [Tag.scan_append hw] at h
      obtain ⟨t, ht, rfl⟩ := Option.map_eq_some_iff.1 h
      have h1 := Tag.length_after_of_scan ht
      -- the text before the tag of the longer text is literal too, so the tag's successor is read
      -- at the same place in both
      have h2 : Tag.Literal (w ++ t.before) := hw.append (Tag.literal_before ht)
      have e1 : (t.behind w).excise = (w ++ t.before) ++ t.after := rfl
      have e2 : (t.behind w).position = (w ++ t.before).length := rfl
      have e3 : w.length + t.position = (w ++ t.before).length := List.length_append.symm
      have e4 : (t.behind w).kind = t.kind := rfl
      have e5 : (t.behind w).content = t.content := rfl
      rw [fragment_of_some ht, e4, e5, e1, e2, e3]
      cases t.kind with
      | comment =>
        show sweep functions _ = _
        rw [ih (by omega) h2, map_push_map_push]
        cases fragment functions (w ++ t.before).length t.after <;> rfl
      | closer => rfl
      | expression =>
        show (sweep functions _).map _ = _
        rw [ih (by omega) h2, map_push_map_push]
        rfl
      | opener =>
        simp only [List.drop_left, List.take_left]
        cases blockName? t.content with
        | none => rfl
        | some name =>
          cases hc : Block.closing? name t.after with
          | none => simp only [hc]; rfl
          | some closer =>
            have h3 : (t.after.take closer.start).length ≤ n := by
              rw [List.length_take]; omega
            have h4 : (t.after.drop closer.stop).length ≤ n := by
              rw [List.length_drop]; omega
            have h5 := ih h3 Tag.Literal.nil
            rw [List.nil_append, List.length_nil] at h5
            simp only [hc, h5, ih h4 h2]
            cases fragment functions 0 (t.after.take closer.start) with
            | error e => rfl
            | ok inner =>
              show _ = Except.map _ (Except.map _ _)
              rw [map_push_map_push]
              rfl

/-- Cutting tags out of a text and reading on behind them come to the same, errors included. -/
theorem sweep_eq_fragment (functions : Functions Context) (src : Bytes) :
    sweep functions src = fragment functions 0 src := by
  have h := sweep_append functions src.length (Nat.le_refl _) (s := src) Tag.Literal.nil
  rw [List.nil_append, List.length_nil] at h
  rw [h]
  cases fragment functions 0 src <;> rfl

end Template

end ThemeTemplates
