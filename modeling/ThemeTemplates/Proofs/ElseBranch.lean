import ThemeTemplates.Template

/-! # The two shapes of a body

The children of a body have no else tag among them, or they are the children before the first one,
that tag, and those after it (`else_cases`). `splitElse_append` is the split in the second case. The
else branch comes after the leaves that the tag itself gives (`Node.ofTag_arguments`).
-/

namespace ThemeTemplates

set_option autoImplicit false

namespace Block

theorem else_cases (children : List Node) :
    (∀ c ∈ children, isElse c = false) ∨
      ∃ main e later, children = main ++ e :: later ∧ (∀ c ∈ main, isElse c = false) ∧
        isElse e = true := by
  induction children with
  | nil => exact .inl (by simp)
  | cons c cs ih =>
    cases hc : isElse c with
    | true => exact .inr ⟨[], c, cs, rfl, by simp, hc⟩
    | false =>
      rcases ih with h | ⟨main, e, later, rfl, hm, he⟩
      · exact .inl (by simpa [hc] using h)
      · exact .inr ⟨c :: main, e, later, rfl, by simpa [hc] using hm, he⟩

theorem splitElse_append {block : Bytes} {main later : List Node} {e : Node}
    (hm : ∀ c ∈ main, isElse c = false) (he : isElse e = true) :
    splitElse block (main ++ e :: later) =
      { block := block.take e.position
        children := main
        elseBranch := some { e with
          block := block.drop e.position
          children := later.map (rebase e.position) } } := by
  have h1 : ∀ c ∈ main, (!isElse c) = true := fun c hc => by rw [hm c hc]; rfl
  unfold splitElse
  rw [List.dropWhile_append_of_pos h1, List.takeWhile_append_of_pos h1,
    List.dropWhile_cons_of_neg (by simp [he]), List.takeWhile_cons_of_neg (by simp [he])]
  simp

theorem isElse_eq_true_iff {n : Node} : isElse n = true ↔ n.name = Node.elseName := beq_iff_eq

theorem isElse_eq_false_iff {n : Node} : isElse n = false ↔ n.name ≠ Node.elseName := by
  rw [← Bool.not_eq_true, isElse_eq_true_iff]

@[simp] theorem rebase_position (start : Nat) (n : Node) :
    (rebase start n).position = n.position - start := rfl

end Block

theorem Node.ofTag_arguments {Context : Type} (functions : Functions Context) (content : Bytes)
    (unescaped : Bool) (position : Nat) (block : Bytes) (children : List Node)
    (elseBranch : Option Node) :
    (ofTag functions content unescaped position block children elseBranch).arguments =
      ((Arguments.parse content).positional ++ (Arguments.parse content).named).map
        (ofToken functions unescaped) ++ elseBranch.toList := rfl

end ThemeTemplates
