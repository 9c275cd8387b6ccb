import ThemeTemplates.Proofs.ElseBranch
import ThemeTemplates.Proofs.TreeShape

/-! # The table of functions and the tree

A node remembers the name under which its function was found, and nothing else of a tree comes from
the table of functions.

* `Node.rebind f n` binds the nodes of a tree anew, each by its own name. `fragment_eq_rebind`: to
  compile with a table is to compile with any other one and to bind the nodes anew.
* `Node.Bound functions n`: the node is bound to the entry of its name, or to the fallback if there
  is none.
* `Template.compile_unbound`: with two tables a template fails alike, or gives trees that only differ
  in how their nodes are bound.
-/

namespace ThemeTemplates

set_option autoImplicit false

/-! ## Binding a tree anew -/

namespace Node

mutual

/-- The tree with each node bound to what `f` gives for its name. -/
def rebind (f : String → String) : Node → Node
  | ⟨name, _, unescaped, position, block, arguments, children⟩ =>
    ⟨name, f name, unescaped, position, block, rebindAll f arguments, rebindAll f children⟩

def rebindAll (f : String → String) : List Node → List Node
  | [] => []
  | n :: ns => rebind f n :: rebindAll f ns

end

/-- The tree without its bindings. -/
def unbound (n : Node) : Node := n.rebind fun _ => ""

theorem rebindAll_eq (f : String → String) (ns : List Node) : rebindAll f ns = ns.map (rebind f) := by
  induction ns with
  | nil => rfl
  | cons n ns ih => rw [rebindAll, ih, List.map_cons]

theorem rebind_eq (f : String → String) (n : Node) : n.rebind f =
    { n with
      function := f n.name
      arguments := n.arguments.map (rebind f)
      children := n.children.map (rebind f) } := by
  obtain ⟨name, function, unescaped, position, block, arguments, children⟩ := n
  rw [rebind, rebindAll_eq, rebindAll_eq]

@[simp] theorem rebind_name (f : String → String) (n : Node) : (n.rebind f).name = n.name := by
  rw [rebind_eq]

@[simp] theorem rebind_position (f : String → String) (n : Node) :
    (n.rebind f).position = n.position := by
  rw [rebind_eq]

mutual

/-- What a node was bound to before does not matter. -/
theorem rebind_rebind (f g : String → String) : ∀ n : Node, (n.rebind f).rebind g = n.rebind g
  | ⟨_, _, _, _, _, arguments, children⟩ => by
    simp only [rebind, rebindAll_rebindAll f g arguments, rebindAll_rebindAll f g children]

theorem rebindAll_rebindAll (f g : String → String) :
    ∀ ns : List Node, rebindAll g (rebindAll f ns) = rebindAll g ns
  | [] => rfl
  | n :: ns => by
    simp only [rebindAll, rebind_rebind f g n, rebindAll_rebindAll f g ns]

end

theorem bodyIndex?_rebind (f : String → String) (n : Node) :
    (n.rebind f).bodyIndex? = n.bodyIndex? := by
  have h : (n.rebind f).children = n.children.map (rebind f) := by rw [rebind_eq]
  apply bodyIndex?_congr
  rw [h, List.map_map]
  exact List.map_congr_left fun c _ => rebind_name f c

end Node

/-! ## Bound nodes -/

namespace Functions

variable {Context : Type}

/-- The entry that a name is bound to, with the name under which it stands in the table. -/
def entry? (functions : Functions Context) (name : String) : Option (String × Renderer Context) :=
  match Table.get? name functions with
  | some r => some (name, r)
  | none => (Table.get? nullName functions).map fun r => (nullName, r)

/-- A table with a fallback has an entry for every name. -/
theorem exists_entry? (functions : Functions Context) (name : String) :
    ∃ r, functions.withNull.entry? name = some (functions.withNull.resolve name, r) ∧
      Table.get? (functions.withNull.resolve name) functions.withNull = some r := by
  have h : ∃ r, Table.get? nullName functions.withNull = some r := by
    unfold withNull
    split
    next h => exact Option.isSome_iff_exists.1 h
    next => exact ⟨null, Table.get?_insert_self nullName null functions⟩
  obtain ⟨r, hr⟩ := h
  unfold entry? resolve Table.has
  cases hn : Table.get? name functions.withNull with
  | some r' => exact ⟨r', by simp [hn]⟩
  | none => exact ⟨r, by simp [hr]⟩

end Functions

namespace Node

variable {Context : Type}

/-- The node calls the entry of its name in the table, or that of the fallback if its name has
none. -/
def Bound (functions : Functions Context) (n : Node) : Prop :=
  ∃ r, functions.entry? n.name = some (n.function, r) ∧ functions.call n = r n

theorem bound_of_function_eq {functions : Functions Context} {n : Node}
    (h : n.function = functions.withNull.resolve n.name) : n.Bound functions.withNull := by
  obtain ⟨r, h1, h2⟩ := functions.exists_entry? n.name
  refine ⟨r, by rw [h, h1], ?_⟩
  funext context
  rw [Functions.call, h, h2, Option.getD_some]

mutual

theorem function_of_mem_rebind (f : String → String) :
    ∀ (n : Node) (role : Role), ∀ p ∈ preorderAs role (n.rebind f), p.2.function = f p.2.name
  | ⟨name, function, unescaped, position, block, arguments, children⟩, role => by
    rw [rebind, forall_preorderAs]
    refine ⟨rfl, fun a ha p hp => ?_, fun c hc p hp => ?_⟩
    · exact function_of_mem_rebindAll f arguments .argument p (mem_preorderAll.2 ⟨a, ha, hp⟩)
    · exact function_of_mem_rebindAll f children .child p (mem_preorderAll.2 ⟨c, hc, hp⟩)

theorem function_of_mem_rebindAll (f : String → String) : ∀ (ns : List Node) (role : Role),
    ∀ p ∈ preorderAll role (rebindAll f ns), p.2.function = f p.2.name
  | [], _ => by simp [rebindAll, preorderAll]
  | n :: ns, role => by
    intro p hp
    rw [rebindAll, preorderAll] at hp
    rcases List.mem_append.1 hp with hp | hp
    · exact function_of_mem_rebind f n role p hp
    · exact function_of_mem_rebindAll f ns role p hp

end

end Node

/-! ## Compiling with another table -/

namespace Block

theorem isElse_rebind (f : String → String) (n : Node) : isElse (n.rebind f) = isElse n := by
  rw [isElse, isElse, Node.rebind_name]

theorem rebase_rebind (f : String → String) (start : Nat) (n : Node) :
    rebase start (n.rebind f) = (rebase start n).rebind f := by
  rw [Node.rebind_eq, Node.rebind_eq]
  rfl

/-- Which children go to the else branch does not depend on what they are bound to. -/
theorem splitElse_map_rebind (f : String → String) (block : Bytes) (children : List Node) :
    splitElse block (children.map (Node.rebind f)) =
      { block := (splitElse block children).block
        children := (splitElse block children).children.map (Node.rebind f)
        elseBranch := (splitElse block children).elseBranch.map (Node.rebind f) } := by
  have h1 : ∀ {ns : List Node}, (∀ c ∈ ns, isElse c = false) →
      ∀ c ∈ ns.map (Node.rebind f), isElse c = false := by
    intro ns h c hc
    obtain ⟨d, hd, rfl⟩ := List.mem_map.1 hc
    rw [isElse_rebind, h d hd]
  rcases else_cases children with h | ⟨main, e, later, rfl, hm, he⟩
  · rw [splitElse_of_forall (h1 h), splitElse_of_forall h]
    rfl
  · have h2 : isElse (e.rebind f) = true := by rw [isElse_rebind, he]
    rw [List.map_append, List.map_cons, splitElse_append (h1 hm) h2, splitElse_append hm he]
    simp only [Option.map_some, Node.rebind_position, List.map_map, Function.comp_def, rebase_rebind]
    simp only [Node.rebind_eq, List.map_map, Function.comp_def]

end Block

section
variable {Context Other : Type} (functions : Functions Context) (other : Functions Other)

theorem Node.rebind_ofToken (unescaped : Bool) (token : Bytes) :
    (ofToken other unescaped token).rebind functions.resolve =
      ofToken functions unescaped token := rfl

theorem Node.rebind_ofTag (content : Bytes) (unescaped : Bool) (position : Nat) (block : Bytes)
    (children : List Node) (elseBranch : Option Node) :
    (ofTag other content unescaped position block children elseBranch).rebind functions.resolve =
      ofTag functions content unescaped position block (children.map (rebind functions.resolve))
        (elseBranch.map (rebind functions.resolve)) := by
  have h : ((Arguments.parse content).positional ++ (Arguments.parse content).named).map
      (rebind functions.resolve ∘ ofToken other unescaped) =
      ((Arguments.parse content).positional ++ (Arguments.parse content).named).map
        (ofToken functions unescaped) :=
    List.map_congr_left fun token _ => rebind_ofToken functions other unescaped token
  rw [rebind_eq, ofTag_arguments, List.map_append, List.map_map, h, ← Option.toList_map]
  rfl

namespace Template

/-- The fragment with its nodes bound anew. -/
def Fragment.rebind (f : String → String) (g : Fragment) : Fragment :=
  ⟨g.text, g.nodes.map (Node.rebind f)⟩

theorem rebind_expressionNode (t : Tag) (position : Nat) :
    (expressionNode other t position).rebind functions.resolve = expressionNode functions t position :=
  Node.rebind_ofTag functions other t.content t.unescaped position [] [] none

theorem rebind_blockNode (t : Tag) (position : Nat) (inner : Fragment) :
    (blockNode other t position inner).rebind functions.resolve =
      blockNode functions t position (inner.rebind functions.resolve) := by
  unfold blockNode
  rw [Node.rebind_ofTag functions other, Fragment.rebind, Block.splitElse_map_rebind]

theorem map_push_rebind (x : Except ParseError Fragment) (f : String → String) (before : Bytes)
    (node : Option Node) :
    (x.map (Fragment.push before node)).map (Fragment.rebind f) =
      (x.map (Fragment.rebind f)).map (Fragment.push before (node.map (Node.rebind f))) :=
  map_push_mapNodes (Node.rebind f) before node x

/-- To compile with a table is to compile with any other one and to bind the nodes anew. -/
theorem fragment_eq_rebind (offset : Nat) (src : Bytes) :
    fragment functions offset src =
      (fragment other offset src).map (.rebind functions.resolve) := by
  induction offset, src using fragment.induct other with
  | case1 offset src hs =>
    rw [fragment_of_none hs, fragment_of_none hs]
    rfl
  | case2 offset src t hs position hk ih =>
    rw [fragment_of_comment hs hk, fragment_of_comment hs hk, map_push_rebind, ih]
    rfl
  | case3 offset src t hs hk =>
    rw [fragment_of_closer hs hk, fragment_of_closer hs hk]
    rfl
  | case4 offset src t hs position hk ih =>
    rw [fragment_of_expression hs hk, fragment_of_expression hs hk, map_push_rebind, ih,
      Option.map_some, rebind_expressionNode]
  | case5 offset src t hs hk hn =>
    rw [fragment_of_unnamed hs hk hn, fragment_of_unnamed hs hk hn]
    rfl
  | case6 offset src t hs hk name hn hc =>
    rw [fragment_of_unclosed hs hk hn hc, fragment_of_unclosed hs hk hn hc]
    rfl
  | case7 offset src t hs hk name hn closer hc e he ih =>
    rw [fragment_of_block hs hk hn hc, fragment_of_block hs hk hn hc, ih, he]
    rfl
  | case8 offset src t hs position hk name hn closer hc inner hi ihi ihf =>
    rw [fragment_of_block hs hk hn hc, fragment_of_block hs hk hn hc, ihi, hi]
    show (fragment functions position (t.after.drop closer.stop)).map (Fragment.push t.before
        (some (blockNode functions t position (inner.rebind functions.resolve)))) =
      ((fragment other position (t.after.drop closer.stop)).map (Fragment.push t.before
        (some (blockNode other t position inner)))).map (Fragment.rebind functions.resolve)
    rw [map_push_rebind, ihf, Option.map_some, rebind_blockNode]

theorem compile_eq_rebind (src : Bytes) (name : String) :
    compile functions src name = (compile other src name).map (Node.rebind functions.resolve) := by
  rw [compile_eq, compile_eq, fragment_eq_rebind functions other]
  cases fragment other 0 src with
  | error e => rfl
  | ok f => exact congrArg Except.ok (Node.rebind_eq functions.resolve (rootNode other name f)).symm

/-- With two tables, compiling a template fails with one error, or gives trees that are equal but for
how their nodes are bound. In each of them every node is bound to the entry of its name, or to the
fallback if the table has no such entry. -/
theorem compile_unbound (src : Bytes) (name : String) :
    (∃ e, compile functions.withNull src name = .error e ∧
      compile other.withNull src name = .error e) ∨
    ∃ m n, compile functions.withNull src name = .ok m ∧ compile other.withNull src name = .ok n ∧
      m.unbound = n.unbound ∧ m.bodyIndex? = n.bodyIndex? ∧
      (∀ p ∈ m.preorder, p.2.Bound functions.withNull) ∧
      ∀ p ∈ n.preorder, p.2.Bound other.withNull := by
  have h1 := compile_eq_rebind functions.withNull ([] : Functions Unit) src name
  have h2 := compile_eq_rebind other.withNull ([] : Functions Unit) src name
  cases h : compile ([] : Functions Unit) src name with
  | error e =>
    rw [h] at h1 h2
    exact .inl ⟨e, h1, h2⟩
  | ok root =>
    rw [h] at h1 h2
    refine .inr ⟨_, _, h1, h2, ?_, ?_, ?_, ?_⟩
    · rw [Node.unbound, Node.unbound, Node.rebind_rebind, Node.rebind_rebind]
    · rw [Node.bodyIndex?_rebind, Node.bodyIndex?_rebind]
    · intro p hp
      exact Node.bound_of_function_eq (Node.function_of_mem_rebind _ root .root p hp)
    · intro p hp
      exact Node.bound_of_function_eq (Node.function_of_mem_rebind _ root .root p hp)

end Template

end

end ThemeTemplates
