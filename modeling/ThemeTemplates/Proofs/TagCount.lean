import ThemeTemplates.Proofs.ElseBranch
import ThemeTemplates.Proofs.Passes

/-! # Tags and the nodes they leave

Each opener and each expression that a pass takes out of the text makes a node, but not each of
these nodes is found once from the root, through children and else branches (`Node.tagCount`).

* An else tag that is a block has children already when the body around it is split. The nodes
  behind it take their place, and they are dropped.
* An argument `else` that comes last is taken for an else branch, since only its name is looked at.

`Template.tagCount_add_dropped` settles the account of all passes: the nodes that are found and
those that are dropped are one for each tag and one for each argument that is mistaken.
-/

namespace ThemeTemplates

set_option autoImplicit false

/-! ## Nodes that come from tags -/

namespace Node

mutual

/-- The nodes below a node, through children and else branches. -/
def tagCount : Node → Nat
  | ⟨_, _, _, _, _, arguments, children⟩ => tagCountAll children + tagCountElse arguments

def tagCountAll : List Node → Nat
  | [] => 0
  | n :: ns => 1 + tagCount n + tagCountAll ns

/-- The last argument with the nodes below it, if it is named `else`. -/
def tagCountElse : List Node → Nat
  | [] => 0
  | [a] => if a.name = elseName then 1 + tagCount a else 0
  | _ :: a :: as => tagCountElse (a :: as)

end

/-- An argument counts as an else branch by its name alone. -/
theorem tagCountAll_filter (a : Node) :
    tagCountAll ((some a).filter fun a => a.name == elseName).toList =
      if a.name = elseName then 1 + tagCount a else 0 := by
  by_cases h : a.name = elseName
  · rw [Option.filter_some_pos (by simpa using h), if_pos h]
    rfl
  · rw [Option.filter_some_neg (by simpa using h), if_neg h]
    rfl

theorem tagCountElse_eq : ∀ as : List Node, tagCountElse as =
    tagCountAll (as.getLast?.filter fun a => a.name == elseName).toList
  | [] => rfl
  | [a] => by rw [tagCountElse, List.getLast?_singleton, tagCountAll_filter]
  | _ :: a :: as => by rw [tagCountElse, tagCountElse_eq (a :: as), List.getLast?_cons_cons]

theorem tagCount_eq (n : Node) :
    n.tagCount = tagCountAll n.children + tagCountAll n.elseBranch?.toList := by
  cases n
  rw [tagCount, tagCountElse_eq]
  rfl

theorem tagCountAll_append (ms ns : List Node) :
    tagCountAll (ms ++ ns) = tagCountAll ms + tagCountAll ns := by
  induction ms with
  | nil => simp [tagCountAll]
  | cons m ms ih => simp only [List.cons_append, tagCountAll, ih, Nat.add_assoc]

theorem tagCountAll_rebase (start : Nat) (ns : List Node) :
    tagCountAll (ns.map (Block.rebase start)) = tagCountAll ns := by
  induction ns with
  | nil => rfl
  | cons n ns ih =>
    rw [List.map_cons, tagCountAll, tagCountAll, ih, tagCount_eq, tagCount_eq n]
    rfl

/-- Whether the last argument of a tag is named `else`. -/
def endsInElse (content : Bytes) : Bool :=
  ((Arguments.parse content).positional ++ (Arguments.parse content).named).getLast?.any
    fun token => Utf8.lossy token == elseName

section
variable {Context : Type} (functions : Functions Context) (content : Bytes) (unescaped : Bool)
  (position : Nat) (block : Bytes) (children : List Node)

/-- An else branch stands behind the leaves, so it is the one that counts. -/
theorem tagCount_ofTag_some {e : Node} (he : e.name = elseName) :
    (ofTag functions content unescaped position block children (some e)).tagCount =
      tagCountAll children + (1 + e.tagCount) := by
  rw [tagCount_eq, elseBranch?, ofTag_arguments, Option.toList_some, List.getLast?_concat,
    tagCountAll_filter, if_pos he]
  rfl

/-- A leaf that is last among the arguments counts if it is named `else`. -/
theorem tagCount_ofTag_none :
    (ofTag functions content unescaped position block children none).tagCount =
      tagCountAll children + (endsInElse content).toNat := by
  rw [tagCount_eq, elseBranch?, ofTag_arguments, Option.toList_none, List.append_nil,
    List.getLast?_map, endsInElse]
  cases ((Arguments.parse content).positional ++ (Arguments.parse content).named).getLast? with
  | none => rfl
  | some token =>
    have h1 : (ofToken functions unescaped token).tagCount = 0 := rfl
    have h2 : (ofToken functions unescaped token).name = Utf8.lossy token := rfl
    rw [Option.map_some, tagCountAll_filter, Option.any_some, h1, h2]
    by_cases h : Utf8.lossy token = elseName
    · simp [h, ofTag]
    · simp [h, ofTag]

end

end Node

namespace Template

open Node

variable {Context : Type}

/-! ## Sums over the passes -/

/-- Sums up what each pass over a text counts for, and each pass over the bodies handed on. -/
def sumPasses (onTag : Tag → Nat) (onBlock : Tag → Bytes → Nat) (src : Bytes) : Nat :=
  match _h : pass src with
  | .done => 0
  | .failed _ => 0
  | .tag t rest => onTag t + sumPasses onTag onBlock rest
  | .block t body rest =>
    onBlock t body + sumPasses onTag onBlock body + sumPasses onTag onBlock rest
termination_by src.length
decreasing_by
  · have h1 := length_of_pass_tag _h
    omega
  · have h1 := length_of_pass_block _h
    omega
  · have h1 := length_of_pass_block _h
    omega

/-- The openers and expressions that the passes take out of a text and of its bodies. -/
def consumed (src : Bytes) : Nat :=
  sumPasses (fun t => if t.kind = .expression then 1 else 0) (fun _ _ => 1) src

/-- The nodes of a body that compiles. -/
def bodyNodes (functions : Functions Context) (body : Bytes) : List Node :=
  match fragment functions 0 body with
  | .ok inner => inner.nodes
  | .error _ => []

/-- The nodes that a split replaces: the children that the first else tag has of its own. -/
def droppedOf (nodes : List Node) : Nat := tagCountAll ((nodes.find? Block.isElse).elim [] children)

/-- The argument of an opener that is taken for an else branch, if no else tag splits the body. -/
def mistakenOf (content : Bytes) (nodes : List Node) : Nat :=
  if nodes.any Block.isElse then 0 else (endsInElse content).toNat

/-- The nodes that are dropped where the bodies of blocks are split. -/
def dropped (functions : Functions Context) (src : Bytes) : Nat :=
  sumPasses (fun _ => 0) (fun _ body => droppedOf (bodyNodes functions body)) src

/-- The arguments of tags that are taken for else branches. -/
def mistaken (functions : Functions Context) (src : Bytes) : Nat :=
  sumPasses (fun t => if t.kind = .expression then (endsInElse t.content).toNat else 0)
    (fun t body => mistakenOf t.content (bodyNodes functions body)) src

section
variable {onTag : Tag → Nat} {onBlock : Tag → Bytes → Nat} {src body rest : Bytes} {t : Tag}

theorem sumPasses_eq (src : Bytes) : sumPasses onTag onBlock src =
    match pass src with
    | .done => 0
    | .failed _ => 0
    | .tag t rest => onTag t + sumPasses onTag onBlock rest
    | .block t body rest =>
      onBlock t body + sumPasses onTag onBlock body + sumPasses onTag onBlock rest := by
  rw [sumPasses]
  split
  next h => rw [h]
  next e h => rw [h]
  next t rest h => rw [h]
  next t body rest h => rw [h]

theorem sumPasses_done (h : pass src = .done) : sumPasses onTag onBlock src = 0 := by
  rw [sumPasses_eq, h]

theorem sumPasses_tag (h : pass src = .tag t rest) :
    sumPasses onTag onBlock src = onTag t + sumPasses onTag onBlock rest := by
  rw [sumPasses_eq, h]

theorem sumPasses_block (h : pass src = .block t body rest) : sumPasses onTag onBlock src =
    onBlock t body + sumPasses onTag onBlock body + sumPasses onTag onBlock rest := by
  rw [sumPasses_eq, h]

end

/-! ## The account -/

variable {functions : Functions Context} {src : Bytes}

theorem tagCount_tagNode? (functions : Functions Context) (t : Tag) :
    tagCountAll (tagNode? functions t).toList =
      (if t.kind = .expression then 1 else 0) +
        if t.kind = .expression then (endsInElse t.content).toNat else 0 := by
  unfold tagNode?
  split
  next =>
    rw [Option.toList_some, tagCountAll, expressionNode, tagCount_ofTag_none]
    simp [tagCountAll]
  next => rfl

/-- A split keeps the nodes of the body but for the children of the else tag. -/
theorem tagCount_blockNode (functions : Functions Context) (t : Tag) (position : Nat)
    (inner : Fragment) :
    (blockNode functions t position inner).tagCount + droppedOf inner.nodes =
      tagCountAll inner.nodes + mistakenOf t.content inner.nodes := by
  obtain ⟨text, nodes⟩ := inner
  unfold blockNode
  rcases Block.else_cases nodes with h | ⟨main, e, later, rfl, hm, he⟩
  · have h1 : nodes.find? Block.isElse = none := by simpa using h
    have h2 : nodes.any Block.isElse = false := by simpa using h
    rw [Block.splitElse_of_forall h, tagCount_ofTag_none, droppedOf, mistakenOf, h1, h2]
    rfl
  · have h1 : (main ++ e :: later).find? Block.isElse = some e := by
      rw [List.find?_append, List.find?_eq_none.2 (by simpa using hm), Option.none_or,
        List.find?_cons_of_pos he]
    have h2 : (main ++ e :: later).any Block.isElse = true := by simp [he]
    have hname : e.name = elseName := Block.isElse_eq_true_iff.1 he
    -- the branch keeps the arguments of `e`, and so an else branch that `e` has of its own
    have h3 : (ofTag functions t.content t.unescaped position (text.take e.position) main
        (some { e with
          block := text.drop e.position
          children := later.map (Block.rebase e.position) })).tagCount =
        tagCountAll main + (1 + (tagCountAll later + tagCountAll e.elseBranch?.toList)) := by
      rw [tagCount_ofTag_some, tagCount_eq, tagCountAll_rebase]
      · rfl
      · exact hname
    rw [Block.splitElse_append hm he, h3, droppedOf, mistakenOf, h1, h2, tagCountAll_append,
      tagCountAll, tagCount_eq e]
    simp only [Option.elim_some, if_true]
    omega

theorem Swept.tagCount {f : Fragment} (h : Swept functions src f) :
    tagCountAll f.nodes + dropped functions src = consumed src + mistaken functions src := by
  induction h with
  | done h =>
    rw [dropped, consumed, mistaken, sumPasses_done h, sumPasses_done h, sumPasses_done h]
    rfl
  | @tag src rest t f h hf ih =>
    have h1 := tagCount_tagNode? functions t
    rw [dropped, consumed, mistaken] at ih ⊢
    rw [sumPasses_tag h, sumPasses_tag h, sumPasses_tag h, Fragment.push, tagCountAll_append]
    omega
  | @block src body rest t inner f h hi hf ihi ihf =>
    have h1 := tagCount_blockNode functions t t.position inner
    have h2 : bodyNodes functions body = inner.nodes := by rw [bodyNodes, hi.fragment_eq]
    rw [dropped, consumed, mistaken] at ihi ihf ⊢
    rw [sumPasses_block h, sumPasses_block h, sumPasses_block h, h2, Fragment.push,
      Option.toList_some, tagCountAll_append, tagCountAll, tagCountAll]
    omega

/-- The nodes of a template that are found through children and else branches, and those that are
dropped, are one for each opener and each expression that the passes take, and one for each argument
that is taken for an else branch. -/
theorem tagCount_add_dropped {name : String} {root : Node}
    (h : compile functions src name = .ok root) :
    root.tagCount + dropped functions src = consumed src + mistaken functions src := by
  obtain ⟨f, hf, rfl⟩ := exists_swept h
  have h1 : (rootNode functions name f).tagCount = tagCountAll f.nodes + 0 := rfl
  rw [h1, Nat.add_zero]
  exact hf.tagCount

theorem tagCount_add_dropped_else :
    let src := Utf8.ofString "{{#a}}\x7b\x7b#else\x7d\x7d{{b}}{{c}}{{/else}}{{/a}}{{foo else}}"
    ∃ root, compile ([] : Functions Unit) src "t" = .ok root ∧
      root.tagCount = 4 ∧ dropped ([] : Functions Unit) src = 2 ∧ consumed src = 5 ∧
      root.tagCount + dropped ([] : Functions Unit) src =
        consumed src + mistaken ([] : Functions Unit) src := by
  intro src
  have h1 : (compile ([] : Functions Unit) src "t").toOption.map tagCount = some 4 := by
    decide +kernel
  obtain ⟨root, hr, hc⟩ := exists_of_toOption h1
  exact ⟨root, hr, hc, by decide +kernel, by decide +kernel, tagCount_add_dropped hr⟩

/-- The node of a tag is nowhere in the tree, and an argument is counted that is no tag. -/
theorem tagCount_ne_consumed :
    let split := Utf8.ofString "{{#a}}\x7b\x7b#else\x7d\x7d{{b}}{{/else}}{{/a}}"
    let plain := Utf8.ofString "{{foo else}}"
    (∃ root, compile ([] : Functions Unit) split "t" = .ok root ∧
      root.tagCount = 2 ∧ consumed split = 3) ∧
    ∃ root, compile ([] : Functions Unit) plain "t" = .ok root ∧
      root.tagCount = 2 ∧ consumed plain = 1 := by
  intro split plain
  have h1 : (compile ([] : Functions Unit) split "t").toOption.map tagCount = some 2 := by
    decide +kernel
  have h2 : (compile ([] : Functions Unit) plain "t").toOption.map tagCount = some 2 := by
    decide +kernel
  obtain ⟨r1, hr1, hc1⟩ := exists_of_toOption h1
  obtain ⟨r2, hr2, hc2⟩ := exists_of_toOption h2
  exact ⟨⟨r1, hr1, hc1, by decide +kernel⟩, r2, hr2, hc2, by decide +kernel⟩

end Template

end ThemeTemplates
