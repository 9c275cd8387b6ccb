import Mathlib.Data.List.Forall2
import ThemeTemplates.Outline
import ThemeTemplates.Proofs.NodeNames

/-! # What an outline tells

The lines of an outline show the nodes in preorder. A line starts with its level in spaces, two
each, and ends with the position of its node. A name may be empty, or hold quotes, brackets and at
signs, but it neither breaks the line nor starts with a space. So at most one space more stands in
front of a line, and half of them, rounded down, is the level.

* `RoseTree.ofLevels` builds trees from labels and their levels, and is the inverse of
  `RoseTree.levels`.
* `Node.shape n`: the tree that the outline shows.
* `Outline.read`: the positions that a text tells, as trees.
* `Template.outline_readable`: the outline of a compiled template tells its shape and all positions.
-/

namespace ThemeTemplates

set_option autoImplicit false

/-! ## Trees and levels -/

inductive RoseTree (α : Type) where
  | node (label : α) (below : List (RoseTree α))

namespace RoseTree

variable {α : Type}

mutual

/-- The labels with their levels, each label before those below it. -/
def levels (depth : Nat) : RoseTree α → List (Nat × α)
  | .node a ts => (depth, a) :: levelsAll (depth + 1) ts

def levelsAll (depth : Nat) : List (RoseTree α) → List (Nat × α)
  | [] => []
  | t :: ts => levels depth t ++ levelsAll depth ts

end

mutual

def map {β : Type} (f : α → β) : RoseTree α → RoseTree β
  | .node a ts => .node (f a) (mapAll f ts)

def mapAll {β : Type} (f : α → β) : List (RoseTree α) → List (RoseTree β)
  | [] => []
  | t :: ts => map f t :: mapAll f ts

end

mutual

theorem levels_map {β : Type} (f : α → β) (depth : Nat) : ∀ t : RoseTree α,
    levels depth (t.map f) = (levels depth t).map fun p => (p.1, f p.2)
  | .node a ts => by rw [map, levels, levels, levelsAll_mapAll f (depth + 1) ts, List.map_cons]

theorem levelsAll_mapAll {β : Type} (f : α → β) (depth : Nat) : ∀ ts : List (RoseTree α),
    levelsAll depth (mapAll f ts) = (levelsAll depth ts).map fun p => (p.1, f p.2)
  | [] => rfl
  | t :: ts => by
    rw [mapAll, levelsAll, levelsAll, levels_map f depth t, levelsAll_mapAll f depth ts,
      List.map_append]

end

theorem levelsAll_append (depth : Nat) (ts us : List (RoseTree α)) :
    levelsAll depth (ts ++ us) = levelsAll depth ts ++ levelsAll depth us := by
  induction ts with
  | nil => rfl
  | cons t ts ih => rw [List.cons_append, levelsAll, levelsAll, ih, List.append_assoc]

theorem mem_levelsAll {depth : Nat} {p : Nat × α} {ts : List (RoseTree α)} :
    p ∈ levelsAll depth ts ↔ ∃ t ∈ ts, p ∈ levels depth t := by
  induction ts with
  | nil => simp [levelsAll]
  | cons t ts ih => simp [levelsAll, ih]

/-- The trees that labels form, with the levels of their roots. Below a label stand the trees that
come right behind it and are deeper. -/
def ofLevels : List (Nat × α) → List (Nat × RoseTree α)
  | [] => []
  | (depth, a) :: rest =>
    (depth, .node a (((ofLevels rest).takeWhile fun t => depth < t.1).map Prod.snd)) ::
      (ofLevels rest).dropWhile fun t => depth < t.1

/-- The labels do not go on deeper than `depth`. -/
def Rises (depth : Nat) (ls : List (Nat × α)) : Prop := ∀ p ∈ ls.head?, p.1 ≤ depth

theorem Rises.append {depth : Nat} {ls : List (Nat × α)} (h : Rises depth ls)
    (ts : List (RoseTree α)) : Rises depth (levelsAll depth ts ++ ls) := by
  cases ts with
  | nil => exact h
  | cons t ts =>
    obtain ⟨a, below⟩ := t
    rintro _ ⟨⟩
    exact Nat.le_refl depth

/-- Trees of one level, put in front of others that are not below the last of them. -/
theorem ofLevels_split {depth : Nat} {ls : List (Nat × α)} (h : Rises depth ls)
    (ts : List (RoseTree α)) :
    ((ts.map fun t => (depth + 1, t)) ++ ofLevels ls).takeWhile (fun t => depth < t.1) =
        ts.map (fun t => (depth + 1, t)) ∧
      ((ts.map fun t => (depth + 1, t)) ++ ofLevels ls).dropWhile (fun t => depth < t.1) =
        ofLevels ls := by
  have h1 : ∀ p ∈ ts.map fun t => (depth + 1, t), decide (depth < p.1) = true := by
    simp
  have h2 : ∀ p ∈ (ofLevels ls).head?, p.1 ≤ depth := by
    cases ls with
    | nil => simp [ofLevels]
    | cons p ls =>
      rintro _ ⟨⟩
      exact h p rfl
  rw [List.takeWhile_append_of_pos h1, List.dropWhile_append_of_pos h1]
  cases ho : ofLevels ls with
  | nil => simp
  | cons p ps =>
    have h3 : p.1 ≤ depth := h2 p (by rw [ho]; rfl)
    simp [Nat.not_lt.2 h3]

mutual

theorem ofLevels_levels (depth : Nat) : ∀ (t : RoseTree α) {ls : List (Nat × α)}, Rises depth ls →
    ofLevels (levels depth t ++ ls) = (depth, t) :: ofLevels ls
  | .node a ts, ls, h => by
    have h1 : Rises (depth + 1) ls := fun p hp => Nat.le_succ_of_le (h p hp)
    obtain ⟨h2, h3⟩ := ofLevels_split h ts
    rw [levels, List.cons_append, ofLevels, ofLevels_levelsAll (depth + 1) ts h1, h2, h3,
      List.map_map]
    simp [Function.comp_def]

theorem ofLevels_levelsAll (depth : Nat) : ∀ (ts : List (RoseTree α)) {ls : List (Nat × α)},
    Rises depth ls →
    ofLevels (levelsAll depth ts ++ ls) = (ts.map fun t => (depth, t)) ++ ofLevels ls
  | [], ls, _ => rfl
  | t :: ts, ls, h => by
    rw [levelsAll, List.append_assoc, ofLevels_levels depth t (h.append ts),
      ofLevels_levelsAll depth ts h]
    rfl

end

end RoseTree

namespace Node

/-! ## The tree that is shown -/

mutual

/-- What is reached from a node through children and else branches. -/
def shape : Node → RoseTree Node
  | ⟨name, function, unescaped, position, block, arguments, children⟩ =>
    .node ⟨name, function, unescaped, position, block, arguments, children⟩
      (shapeAll children ++ shapeElse arguments)

def shapeAll : List Node → List (RoseTree Node)
  | [] => []
  | n :: ns => shape n :: shapeAll ns

def shapeElse : List Node → List (RoseTree Node)
  | [] => []
  | [n] => if n.name == elseName then [shape n] else []
  | _ :: ns => shapeElse ns

end

theorem shapeElse_cons_cons (m n : Node) (ns : List Node) :
    shapeElse (m :: n :: ns) = shapeElse (n :: ns) := rfl

theorem shapeAll_eq (ns : List Node) : shapeAll ns = ns.map shape := by
  induction ns with
  | nil => rfl
  | cons n ns ih => rw [shapeAll, ih, List.map_cons]

theorem shapeElse_eq : ∀ ns : List Node,
    shapeElse ns = (ns.getLast?.filter fun a => a.name == elseName).toList.map shape
  | [] => rfl
  | [n] => by
    rw [shapeElse, List.getLast?_singleton, Option.filter_some]
    split <;> rfl
  | m :: n :: ns => by
    rw [shapeElse_cons_cons, shapeElse_eq (n :: ns), List.getLast?_cons_cons]

/-- An else branch is the last of what stands below its owner. -/
theorem shape_eq (n : Node) :
    n.shape = .node n ((n.children ++ n.elseBranch?.toList).map shape) := by
  cases n
  rw [shape, shapeAll_eq, shapeElse_eq, List.map_append]
  rfl

mutual

/-- The outline has a line for each node that is shown, at its level. -/
theorem outlineLines_eq (depth : Nat) : ∀ n : Node,
    outlineLines depth n = (n.shape.levels depth).map fun p => indent p.1 ++ p.2.heading
  | ⟨name, function, unescaped, position, block, arguments, children⟩ => by
    rw [outlineLines, shape, RoseTree.levels, RoseTree.levelsAll_append, List.map_cons,
      List.map_append, outlineAll_eq (depth + 1) children, outlineElse_eq (depth + 1) arguments]

theorem outlineAll_eq (depth : Nat) : ∀ ns : List Node, outlineAll depth ns =
    (RoseTree.levelsAll depth (shapeAll ns)).map fun p => indent p.1 ++ p.2.heading
  | [] => rfl
  | n :: ns => by
    rw [outlineAll, shapeAll, RoseTree.levelsAll, List.map_append, outlineLines_eq depth n,
      outlineAll_eq depth ns]

theorem outlineElse_eq (depth : Nat) : ∀ ns : List Node, outlineElse depth ns =
    (RoseTree.levelsAll depth (shapeElse ns)).map fun p => indent p.1 ++ p.2.heading
  | [] => rfl
  | [n] => by
    rw [outlineElse, shapeElse]
    split
    · rw [outlineLines_eq depth n, RoseTree.levelsAll, RoseTree.levelsAll, List.append_nil]
    · rfl
  | m :: n :: ns => by
    rw [shapeElse_cons_cons, ← outlineElse_eq depth (n :: ns)]
    rfl

end

theorem mem_of_mem_below {n m : Node} (h : m ∈ n.children ++ n.elseBranch?.toList) :
    m ∈ n.children ∨ m ∈ n.arguments := by
  refine (List.mem_append.1 h).imp_right fun h => ?_
  have h1 : n.elseBranch? = some m := by simpa using h
  exact List.mem_of_getLast? (Option.filter_eq_some_iff.1 h1).1

theorem sizeOf_lt_of_mem_below {n m : Node} (h : m ∈ n.children ++ n.elseBranch?.toList) :
    sizeOf m < sizeOf n := by
  have h1 := mem_of_mem_below h
  cases n with
  | mk name function unescaped position block arguments children =>
    have h2 : sizeOf m < sizeOf children ∨ sizeOf m < sizeOf arguments :=
      h1.imp List.sizeOf_lt_of_mem List.sizeOf_lt_of_mem
    rw [Node.mk.sizeOf_spec]
    omega

theorem labelled_of_mem_levels {n : Node} {depth : Nat} {p : Nat × Node} (hn : n.Labelled)
    (h : p ∈ n.shape.levels depth) : p.2.Labelled := by
  rw [shape_eq, RoseTree.levels, List.mem_cons, RoseTree.mem_levelsAll] at h
  rcases h with rfl | ⟨t, ht, hp⟩
  · exact hn
  · obtain ⟨m, hm, rfl⟩ := List.mem_map.1 ht
    obtain ⟨-, ha, hc⟩ := labelled_iff.1 hn
    exact labelled_of_mem_levels ((mem_of_mem_below hm).elim (hc m) (ha m)) hp
termination_by sizeOf n
decreasing_by exact sizeOf_lt_of_mem_below hm

end Node

/-! ## Reading text -/

namespace Outline

/-- The lines of a text that ends each of them with a line feed. -/
def lines (text : String) : List (List Char) := (text.toList.splitOn '\n').dropLast

/-- What stands behind the last place of a mark. -/
def afterLast? (mark : List Char) : List Char → Option (List Char)
  | [] => none
  | c :: cs =>
    match afterLast? mark cs with
    | some v => some v
    | none => if mark.isPrefixOf (c :: cs) then some ((c :: cs).drop mark.length) else none

def positionMark : List Char := [' ', '@']

def level (line : List Char) : Nat := (line.takeWhile fun c => c == ' ').length / 2

def position (line : List Char) : Nat :=
  Nat.ofDigitChars 10 ((afterLast? positionMark line).getD []) 0

/-- The positions that a text tells, as trees. -/
def read (text : String) : List (RoseTree Nat) :=
  (RoseTree.ofLevels ((lines text).map fun line => (level line, position line))).map Prod.snd

theorem splitOn_flatMap {ls : List (List Char)} (h : ∀ l ∈ ls, '\n' ∉ l) :
    (ls.flatMap fun l => l ++ ['\n']).splitOn '\n' = ls ++ [[]] := by
  induction ls with
  | nil => rfl
  | cons l ls ih =>
    have h1 : ∀ c ∈ l, (c == '\n') = false := fun c hc => by
      rw [beq_eq_false_iff_ne]
      rintro rfl
      exact h l List.mem_cons_self hc
    rw [List.splitOn_eq_splitOnP] at ih ⊢
    rw [List.flatMap_cons, List.append_assoc, List.singleton_append,
      List.splitOnP_append_cons_of_forall_mem h1 '\n' rfl,
      ih fun k hk => h k (List.mem_cons_of_mem l hk)]
    rfl

theorem afterLast?_of_not_mem {m : Char} {ms v : List Char} (h : m ∉ v) :
    afterLast? (m :: ms) v = none := by
  induction v with
  | nil => rfl
  | cons c v ih =>
    obtain ⟨h1, h2⟩ := List.ne_and_not_mem_of_not_mem_cons h
    rw [afterLast?, ih h2]
    simp [h1]

theorem afterLast?_append {v : List Char} (h : ' ' ∉ v) (u : List Char) :
    afterLast? positionMark (u ++ ' ' :: '@' :: v) = some v := by
  induction u with
  | nil =>
    have h1 : ' ' ∉ '@' :: v := by simp [h]
    rw [List.nil_append, afterLast?, positionMark, afterLast?_of_not_mem h1]
    simp
  | cons c u ih => rw [List.cons_append, afterLast?, ih]

/-! ## The line of a node -/

/-- How the line of a node looks at some level. -/
structure Shows (depth : Nat) (n : Node) (line : List Char) : Prop where
  indented : ∃ c text, c ≠ ' ' ∧
    line = List.replicate (2 * depth + if n.name = "" then 1 else 0) ' ' ++ c :: text
  position : afterLast? positionMark line = some (toString n.position).toList

theorem Shows.level_eq {depth : Nat} {n : Node} {line : List Char} (h : Shows depth n line) :
    level line = depth := by
  obtain ⟨c, text, hc, rfl⟩ := h.indented
  have h1 : ((List.replicate (2 * depth + if n.name = "" then 1 else 0) ' ' ++ c :: text).takeWhile
      fun c => c == ' ').length = 2 * depth + if n.name = "" then 1 else 0 := by
    rw [List.takeWhile_append_of_pos (by simp), List.takeWhile_cons_of_neg (by simpa using hc),
      List.append_nil, List.length_replicate]
  rw [level, h1]
  split <;> omega

theorem Shows.position_eq {depth : Nat} {n : Node} {line : List Char} (h : Shows depth n line) :
    Outline.position line = n.position := by
  rw [Outline.position, h.position, Option.getD_some, Nat.toString_eq_repr, Nat.toList_repr,
    Nat.ofDigitChars_ten_toDigits]

end Outline

namespace Node

/-- Behind the name of a node comes a remark, or its position. -/
theorem exists_heading (n : Node) : ∃ c text, c ≠ ' ' ∧
    n.heading.toList = n.name.toList ++ ' ' :: c :: text := by
  simp only [heading, String.toList_append, List.append_assoc]
  cases n.unescaped with
  | true => exact ⟨'(', _, by decide, rfl⟩
  | false =>
    cases n.shownArguments with
    | nil => exact ⟨'@', _, by decide, rfl⟩
    | cons a as =>
      simp only [String.toList_append, List.append_assoc]
      exact ⟨'[', _, by decide, rfl⟩

theorem exists_before_position (n : Node) : ∃ before,
    n.heading.toList = before ++ ' ' :: '@' :: (toString n.position).toList := by
  rw [heading, String.toList_append, String.toList_append, List.append_assoc]
  exact ⟨_, rfl⟩

theorem not_mem_intercalate {c : Char} {sep : List Char} {ls : List (List Char)} (hs : c ∉ sep)
    (h : ∀ l ∈ ls, c ∉ l) : c ∉ sep.intercalate ls := by
  induction ls with
  | nil => simp
  | cons l ls ih =>
    have h1 := ih fun k hk => h k (List.mem_cons_of_mem l hk)
    cases ls with
    | nil => simpa using h
    | cons k ls =>
      rw [List.intercalate_cons_cons]
      simp only [List.mem_append, not_or]
      exact ⟨⟨h l List.mem_cons_self, hs⟩, h1⟩

theorem not_mem_digits {c : Char} (hc : c.isDigit = false) (k : Nat) : c ∉ (toString k).toList := by
  rw [Nat.toString_eq_repr, Nat.toList_repr]
  intro hm
  have h1 := Nat.isDigit_of_mem_toDigits (by decide) (by decide) hm
  rw [hc] at h1
  cases h1

theorem not_mem_heading {n : Node} (h : n.Labelled) : '\n' ∉ n.heading.toList := by
  obtain ⟨hn, ha, -⟩ := labelled_iff.1 h
  have h1 : ∀ name ∈ n.shownArguments, '\n' ∉ name.toList := by
    intro name hm
    obtain ⟨a, ham, rfl⟩ := List.mem_map.1 (List.mem_filter.1 hm).1
    exact (labelled_iff.1 (ha a ham)).1.1
  simp only [heading, String.toList_append, List.mem_append, not_or]
  refine ⟨⟨⟨⟨hn.1, ?_⟩, ?_⟩, by decide⟩, not_mem_digits rfl n.position⟩
  · cases n.unescaped <;> decide
  · split
    · decide
    · rw [String.toList_append, String.toList_append, String.toList_intercalate, List.mem_append,
        List.mem_append, not_or, not_or]
      refine ⟨⟨by decide, not_mem_intercalate (by decide) ?_⟩, by decide⟩
      intro l hl
      obtain ⟨name, hm, rfl⟩ := List.mem_map.1 hl
      exact h1 name hm

theorem shows_heading {n : Node} (h : n.Labelled) (depth : Nat) :
    Outline.Shows depth n (indent depth ++ n.heading).toList := by
  have hi : (indent depth).toList = List.replicate (2 * depth) ' ' := String.toList_ofList
  constructor
  · obtain ⟨c, text, hc, e⟩ := n.exists_heading
    rw [String.toList_append, hi, e]
    by_cases hn : n.name = ""
    · refine ⟨c, text, hc, ?_⟩
      rw [hn, if_pos rfl, List.replicate_succ', List.append_assoc]
      rfl
    · obtain ⟨a, as, ha⟩ := List.exists_cons_of_ne_nil (mt String.toList_eq_nil_iff.1 hn)
      refine ⟨a, as ++ ' ' :: c :: text, ?_, ?_⟩
      · rintro rfl
        exact (labelled_iff.1 h).1.2 (by rw [ha]; rfl)
      · rw [if_neg hn, ha]
        rfl
  · obtain ⟨before, e⟩ := n.exists_before_position
    rw [String.toList_append, e, ← List.append_assoc]
    exact Outline.afterLast?_append (not_mem_digits rfl n.position) _

end Node

namespace Outline

variable {n : Node}

theorem toList_outline (n : Node) : n.outline.toList =
    ((n.outlineLines 0).map String.toList).flatMap fun l => l ++ ['\n'] := by
  rw [Node.outline, String.toList_join, List.flatMap_map, List.flatMap_map]
  simp only [String.toList_append]
  rfl

/-- The lines that show a tree are those of its nodes, in preorder. -/
theorem splitOn_outline (h : n.Labelled) : n.outline.toList.splitOn '\n' =
    ((n.shape.levels 0).map fun p => (Node.indent p.1 ++ p.2.heading).toList) ++ [[]] := by
  rw [toList_outline, Node.outlineLines_eq, List.map_map]
  refine splitOn_flatMap fun l hl => ?_
  obtain ⟨p, hp, rfl⟩ := List.mem_map.1 hl
  have h1 := Node.not_mem_heading (Node.labelled_of_mem_levels h hp)
  have h2 : (Node.indent p.1).toList = List.replicate (2 * p.1) ' ' := String.toList_ofList
  simp [h1, h2]

/-- The text of an outline tells the shape of the tree, and the positions of its nodes. -/
theorem read_outline (h : n.Labelled) : read n.outline = [n.shape.map Node.position] := by
  have h1 : (n.shape.levels 0).map ((fun line => (level line, position line)) ∘
      fun p => (Node.indent p.1 ++ p.2.heading).toList) =
        (n.shape.map Node.position).levels 0 := by
    rw [RoseTree.levels_map]
    refine List.map_congr_left fun p hp => ?_
    have hs := Node.shows_heading (Node.labelled_of_mem_levels h hp) p.1
    rw [Function.comp_apply, hs.level_eq, hs.position_eq]
  have hr : RoseTree.Rises 0 ([] : List (Nat × Nat)) := by simp [RoseTree.Rises]
  have h2 := RoseTree.ofLevels_levels 0 (n.shape.map Node.position) hr
  rw [List.append_nil] at h2
  rw [read, lines, splitOn_outline h, List.dropLast_concat, List.map_map, h1, h2]
  rfl

end Outline

namespace Template

/-- An outline has one line for each node, which shows its level and its position. So it can be read
back, and trees with one outline have one shape and the same positions. -/
theorem outline_readable {Context : Type} {functions : Functions Context} {src : Bytes}
    {name : String} {root : Node} (hn : Label name) (h : compile functions src name = .ok root) :
    (∃ ls, root.outline.toList.splitOn '\n' = ls ++ [[]] ∧
      List.Forall₂ (fun p line => Outline.Shows p.1 p.2 line) (root.shape.levels 0) ls) ∧
    Outline.read root.outline = [root.shape.map Node.position] ∧
    ∀ {Other : Type} (functions' : Functions Other) (src' : Bytes) (name' : String) (root' : Node),
      Label name' → compile functions' src' name' = .ok root' → root'.outline = root.outline →
      root'.shape.map Node.position = root.shape.map Node.position := by
  have hl := labelled_of_compile hn h
  refine ⟨⟨_, Outline.splitOn_outline hl, ?_⟩, Outline.read_outline hl, ?_⟩
  · rw [List.forall₂_map_right_iff, List.forall₂_same]
    exact fun p hp => Node.shows_heading (Node.labelled_of_mem_levels hl hp) p.1
  · intro Other functions' src' name' root' hn' h' e
    have h1 := Outline.read_outline (labelled_of_compile hn' h')
    rw [e, Outline.read_outline hl] at h1
    exact (List.cons.inj h1).1.symm

/-- A value that looks like a position, an else branch, and a tag without a name. -/
theorem outline_readable_unnamed : ∃ root : Node,
    compile ([] : Functions Unit)
        (Utf8.ofString "x\x7b\x7b#if k='v @7'\x7d\x7dy{{else}}{{b}}{{/if}}\x7b\x7b\x7d\x7d") "t" =
          .ok root ∧
      root.outline = "t @0\n  if [k=v @7] @1\n    else @1\n      b @0\n   @1\n" ∧
      (root.shape.levels 0).map (fun p => (p.1, p.2.name, p.2.position)) =
        [(0, "t", 0), (1, "if", 1), (2, "else", 1), (3, "b", 0), (1, "", 1)] ∧
      (∃ ls, root.outline.toList.splitOn '\n' = ls ++ [[]] ∧
        List.Forall₂ (fun p line => Outline.Shows p.1 p.2 line) (root.shape.levels 0) ls) ∧
      Outline.read root.outline = [root.shape.map Node.position] := by
  have hn : Label "t" := ⟨by decide, by decide⟩
  have h1 : (compile ([] : Functions Unit)
      (Utf8.ofString "x\x7b\x7b#if k='v @7'\x7d\x7dy{{else}}{{b}}{{/if}}\x7b\x7b\x7d\x7d")
        "t").toOption.map (fun root => (root.outline,
          (root.shape.levels 0).map fun p => (p.1, p.2.name, p.2.position))) =
      some ("t @0\n  if [k=v @7] @1\n    else @1\n      b @0\n   @1\n",
        [(0, "t", 0), (1, "if", 1), (2, "else", 1), (3, "b", 0), (1, "", 1)]) := by
    decide +kernel
  obtain ⟨root, hr, h2⟩ := exists_of_toOption h1
  obtain ⟨h3, h4⟩ := Prod.mk.inj h2
  obtain ⟨h5, h6, -⟩ := outline_readable hn hr
  exact ⟨root, hr, h3, h4, h5, h6⟩

end Template

end ThemeTemplates
