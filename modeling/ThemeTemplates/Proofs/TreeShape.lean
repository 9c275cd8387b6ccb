import ThemeTemplates.Proofs.Compiles
import ThemeTemplates.Proofs.ElseBranch

/-! # The shape of template trees

* `Node.Regular role n`: the children of `n` stand in order and inside its block, its arguments are
  leaves but for an else branch at the end, and no child of it is an else tag.
* `Compiles.placed`: the nodes of a fragment stand in order and inside its text, so a body is cut
  at a place that it has, and what is counted anew from there stands behind it (`Cuts`).
-/

namespace ThemeTemplates

set_option autoImplicit false

namespace Node

/-! ## Regular nodes -/

/-- A node without text, arguments and children. -/
structure IsLeaf (unescaped : Bool) (n : Node) : Prop where
  unescaped : n.unescaped = unescaped
  position : n.position = 0
  block : n.block = []
  arguments : n.arguments = []
  children : n.children = []

structure Regular (role : Role) (n : Node) : Prop where
  ordered : n.children.Pairwise fun c d => c.position ≤ d.position
  inside : ∀ c ∈ n.children, c.position ≤ n.block.length
  arguments : n.name ≠ elseName → ∀ i a, n.arguments[i]? = some a → a.IsLeaf n.unescaped ∨
    i + 1 = n.arguments.length ∧ a.name = elseName ∧ a.position = n.block.length
  no_else : role ≠ .root → n.name ≠ elseName → ∀ c ∈ n.children, c.name ≠ elseName

/-! ## All nodes of a tree -/

theorem mem_preorderAll {role : Role} {p : Role × Node} {ns : List Node} :
    p ∈ preorderAll role ns ↔ ∃ n ∈ ns, p ∈ preorderAs role n := by
  induction ns with
  | nil => simp [preorderAll]
  | cons n ns ih => simp [preorderAll, ih]

theorem forall_preorderAs {role : Role} {n : Node} {P : Role × Node → Prop} :
    (∀ p ∈ preorderAs role n, P p) ↔
      P (role, n) ∧ (∀ a ∈ n.arguments, ∀ p ∈ preorderAs .argument a, P p) ∧
        ∀ c ∈ n.children, ∀ p ∈ preorderAs .child c, P p := by
  cases n with
  | mk name function unescaped position block arguments children =>
    simp only [preorderAs, List.mem_cons, List.mem_append, mem_preorderAll]
    constructor
    · intro h
      exact ⟨h _ (.inl rfl), fun a ha p hp => h p (.inr (.inl ⟨a, ha, hp⟩)),
        fun c hc p hp => h p (.inr (.inr ⟨c, hc, hp⟩))⟩
    · rintro ⟨h1, h2, h3⟩ p (rfl | ⟨a, ha, hp⟩ | ⟨c, hc, hp⟩)
      · exact h1
      · exact h2 a ha p hp
      · exact h3 c hc p hp

theorem forall_node_iff (P : Node → Prop) {n : Node} : (∀ p ∈ preorderAs .child n, P p.2) ↔
    P n ∧ (∀ a ∈ n.arguments, ∀ p ∈ preorderAs .child a, P p.2) ∧
      ∀ c ∈ n.children, ∀ p ∈ preorderAs .child c, P p.2 := by
  rw [forall_preorderAs]
  refine and_congr_right fun _ => and_congr_left fun _ => forall₂_congr fun a _ => ?_
  rw [forall_preorderAs, forall_preorderAs]

/-- A node that is regular below a root is regular in every part. -/
theorem Regular.of_ne_root {role : Role} {n : Node} (h : Regular role n) (hr : role ≠ .root)
    (role' : Role) : Regular role' n :=
  ⟨h.ordered, h.inside, h.arguments, fun _ => h.no_else hr⟩

/-- Every node of the tree of a node that is no root is regular. -/
def Sound (n : Node) : Prop := ∀ p ∈ preorderAs .child n, Regular p.1 p.2

theorem sound_iff {n : Node} :
    n.Sound ↔ Regular .child n ∧ (∀ a ∈ n.arguments, a.Sound) ∧ ∀ c ∈ n.children, c.Sound := by
  unfold Sound
  rw [forall_preorderAs]
  refine and_congr_right fun _ => and_congr_left fun _ => forall₂_congr fun a _ => ?_
  rw [forall_preorderAs, forall_preorderAs]
  refine and_congr_left fun _ => ⟨fun h => ?_, fun h => ?_⟩
  · exact Regular.of_ne_root h (by simp) _
  · exact Regular.of_ne_root h (by simp) _

theorem IsLeaf.sound {unescaped : Bool} {n : Node} (h : n.IsLeaf unescaped) : n.Sound := by
  have h1 : Regular .child n := by
    refine ⟨?_, ?_, ?_, ?_⟩
    · rw [h.children]; exact List.Pairwise.nil
    · rw [h.children]; simp
    · intro _ i a ha
      rw [h.arguments] at ha
      simp at ha
    · rw [h.children]; simp
  refine sound_iff.2 ⟨h1, ?_, ?_⟩
  · rw [h.arguments]; simp
  · rw [h.children]; simp

/-! ## Nodes of tags -/

section
variable {Context : Type} {functions : Functions Context} {content : Bytes} {unescaped : Bool}
  {position : Nat} {block : Bytes} {children : List Node}

theorem isLeaf_ofToken (functions : Functions Context) (unescaped : Bool) (token : Bytes) :
    (ofToken functions unescaped token).IsLeaf unescaped := ⟨rfl, rfl, rfl, rfl, rfl⟩

/-- The arguments of a tag's node are leaves, and the else branch at their end. -/
theorem argument_cases {elseBranch : Option Node}
    (he : ∀ e ∈ elseBranch, e.name = elseName ∧ e.position = block.length) :
    ∀ i a, (ofTag functions content unescaped position block children elseBranch).arguments[i]? =
      some a → a.IsLeaf unescaped ∨
        i + 1 = (ofTag functions content unescaped position block children
          elseBranch).arguments.length ∧ a.name = elseName ∧ a.position = block.length := by
  intro i a h
  rw [ofTag_arguments] at h ⊢
  rw [List.getElem?_append] at h
  split at h
  next =>
    obtain ⟨token, -, rfl⟩ := List.mem_map.1 (List.mem_of_getElem? h)
    exact .inl (isLeaf_ofToken functions unescaped token)
  next hi =>
    cases elseBranch with
    | none => simp at h
    | some e =>
      obtain ⟨h1, h2⟩ := he e rfl
      rw [Option.toList_some, List.getElem?_singleton] at h
      split at h
      next h3 =>
        cases h
        refine .inr ⟨?_, h1, h2⟩
        rw [List.length_append, Option.toList_some, List.length_singleton]
        omega
      next => cases h

end

/-- What a node's own children and else branch must satisfy for the tree below it to be sound. -/
theorem sound_ofTag {Context : Type} {functions : Functions Context} {content : Bytes}
    {unescaped : Bool} {position : Nat} {block : Bytes} {children : List Node}
    {elseBranch : Option Node}
    (ho : children.Pairwise fun c d => c.position ≤ d.position)
    (hi : ∀ c ∈ children, c.position ≤ block.length)
    (hn : ∀ c ∈ children, c.name ≠ elseName)
    (he : ∀ e ∈ elseBranch, e.name = elseName ∧ e.position = block.length)
    (hs : ∀ c ∈ children, c.Sound) (hse : ∀ e ∈ elseBranch, e.Sound) :
    (ofTag functions content unescaped position block children elseBranch).Sound := by
  refine sound_iff.2 ⟨⟨ho, hi, fun _ => argument_cases he, fun _ _ => hn⟩, ?_, hs⟩
  intro a ha
  rw [ofTag_arguments] at ha
  rcases List.mem_append.1 ha with h | h
  · obtain ⟨token, -, rfl⟩ := List.mem_map.1 h
    exact (isLeaf_ofToken functions unescaped token).sound
  · exact hse a (by simpa using h)

end Node

namespace Template

variable {Context : Type} {functions : Functions Context}

/-! ## Fragments -/

/-- The nodes stand in order and inside the text, of which the first byte has the position
`offset`. -/
structure Placed (offset : Nat) (f : Fragment) : Prop where
  ordered : f.nodes.Pairwise fun c d => c.position ≤ d.position
  low : ∀ n ∈ f.nodes, offset ≤ n.position
  high : ∀ n ∈ f.nodes, n.position ≤ offset + f.text.length

theorem Placed.push_none {offset : Nat} {before : Bytes} {f : Fragment}
    (h : Placed (offset + before.length) f) : Placed offset (f.push before none) := by
  refine ⟨h.ordered, ?_, ?_⟩
  · intro n hn
    have h1 := h.low n hn
    omega
  · intro n hn
    have h1 := h.high n hn
    have h2 : (f.push before none).text.length = before.length + f.text.length :=
      List.length_append
    omega

theorem Placed.push_some {offset : Nat} {before : Bytes} {node : Node} {f : Fragment}
    (h : Placed (offset + before.length) f) (hp : node.position = offset + before.length) :
    Placed offset (f.push before (some node)) := by
  have h1 : (f.push before (some node)).nodes = node :: f.nodes := rfl
  have h2 : (f.push before (some node)).text.length = before.length + f.text.length :=
    List.length_append
  refine ⟨?_, ?_, ?_⟩
  · rw [h1, List.pairwise_cons, hp]
    exact ⟨h.low, h.ordered⟩
  · intro n hn
    rcases List.mem_cons.1 (h1 ▸ hn) with rfl | hn
    · omega
    · exact h.push_none.low n hn
  · intro n hn
    rcases List.mem_cons.1 (h1 ▸ hn) with rfl | hn
    · omega
    · have h3 := h.high n hn
      omega

theorem Placed.push_node {offset : Nat} {node : Node} {f : Fragment} (h : Placed offset f)
    (hp : node.position = offset) : Placed offset (f.push [] (some node)) := by
  have h1 : Placed (offset + ([] : Bytes).length) f := h
  exact h1.push_some hp

theorem Compiles.placed {offset : Nat} {src : Bytes} {f : Fragment}
    (h : Compiles functions offset src f) : Placed offset f := by
  induction h with
  | literal _ => exact ⟨List.Pairwise.nil, by simp, by simp⟩
  | comment _ _ _ ih => exact ih.push_none
  | expression _ _ _ ih => exact ih.push_some rfl
  | block _ _ _ _ _ _ _ ih => exact ih.push_some rfl

/-! ## The halves of a body -/

theorem Placed.inside {f : Fragment} (h : Placed 0 f) : ∀ n ∈ f.nodes, n.position ≤ f.text.length := by
  intro n hn
  have h1 := h.high n hn
  omega

section
variable {text : Bytes} {main later : List Node} {e : Node}

theorem Placed.length_take (h : Placed 0 ⟨text, main ++ e :: later⟩) :
    (text.take e.position).length = e.position := by
  rw [List.length_take, Nat.min_eq_left (h.inside e (by simp))]

/-- The nodes before a tag stand inside the text before it. -/
theorem Placed.before (h : Placed 0 ⟨text, main ++ e :: later⟩) :
    Placed 0 ⟨text.take e.position, main⟩ := by
  obtain ⟨h1, -, h2⟩ := List.pairwise_append.1 h.ordered
  refine ⟨h1, by simp, fun n hn => ?_⟩
  have h3 := h2 n hn e (by simp)
  have h4 := h.length_take
  simp only
  omega

/-- The nodes behind a tag stand behind it. -/
theorem Placed.le_later (h : Placed 0 ⟨text, main ++ e :: later⟩) :
    ∀ n ∈ later, e.position ≤ n.position :=
  (List.pairwise_cons.1 (List.pairwise_append.1 h.ordered).2.1).1

/-- Counted from a tag, the nodes behind it stand inside the text behind it. -/
theorem Placed.behind (h : Placed 0 ⟨text, main ++ e :: later⟩) :
    Placed 0 ⟨text.drop e.position, later.map (Block.rebase e.position)⟩ := by
  obtain ⟨-, h1⟩ := List.pairwise_cons.1 (List.pairwise_append.1 h.ordered).2.1
  refine ⟨List.pairwise_map.2 (h1.imp ?_), by simp, ?_⟩
  · intro c d hcd
    rw [Block.rebase_position, Block.rebase_position]
    omega
  · intro c' hc'
    obtain ⟨c, hc, rfl⟩ := List.mem_map.1 hc'
    have h2 : c.position ≤ text.length := h.inside c (by simp [hc])
    rw [Block.rebase_position, List.length_drop]
    omega

/-- An else branch that is sound as a tag is sound over the rest of the body. -/
theorem sound_elseBranch (h : Placed 0 ⟨text, main ++ e :: later⟩) (he : Block.isElse e = true)
    (hs : ∀ c ∈ main ++ e :: later, c.Sound) :
    Node.Sound { e with
      block := text.drop e.position
      children := later.map (Block.rebase e.position) } := by
  obtain ⟨_, hargs, _⟩ := Node.sound_iff.1 (hs e (by simp))
  have hname : e.name = Node.elseName := Block.isElse_eq_true_iff.1 he
  refine Node.sound_iff.2 ⟨⟨h.behind.ordered, h.behind.inside, fun hne => absurd hname hne,
    fun _ hne => absurd hname hne⟩, hargs, ?_⟩
  intro c' hc'
  obtain ⟨c, hc, rfl⟩ := List.mem_map.1 hc'
  have h1 := Node.sound_iff.1 (hs c (by simp [hc]))
  exact Node.sound_iff.2 ⟨⟨h1.1.ordered, h1.1.inside, h1.1.arguments, h1.1.no_else⟩, h1.2⟩

end

theorem sound_blockNode {t : Tag} {position : Nat} {inner : Fragment} (h : Placed 0 inner)
    (hs : ∀ c ∈ inner.nodes, c.Sound) : (blockNode functions t position inner).Sound := by
  obtain ⟨text, nodes⟩ := inner
  unfold blockNode
  rcases Block.else_cases nodes with hn | ⟨main, e, later, rfl, hm, he⟩
  · rw [Block.splitElse_of_forall hn]
    exact Node.sound_ofTag h.ordered h.inside
      (fun c hc => Block.isElse_eq_false_iff.1 (hn c hc)) (by simp) hs (by simp)
  · rw [Block.splitElse_append hm he]
    refine Node.sound_ofTag h.before.ordered h.before.inside
      (fun c hc => Block.isElse_eq_false_iff.1 (hm c hc)) ?_ (fun c hc => hs c (by simp [hc])) ?_
    · rintro _ ⟨⟩
      exact ⟨Block.isElse_eq_true_iff.1 he, h.length_take.symm⟩
    · rintro _ ⟨⟩
      exact sound_elseBranch h he hs

theorem Compiles.sound {offset : Nat} {src : Bytes} {f : Fragment}
    (h : Compiles functions offset src f) : ∀ n ∈ f.nodes, n.Sound := by
  induction h with
  | literal _ => simp
  | comment _ _ _ ih => exact ih
  | expression _ _ _ ih =>
    intro n hn
    rcases List.mem_cons.1 hn with rfl | hn
    · exact Node.sound_ofTag List.Pairwise.nil (by simp) (by simp) (by simp) (by simp) (by simp)
    · exact ih n hn
  | block _ _ _ _ hi _ ihi ihf =>
    intro n hn
    rcases List.mem_cons.1 hn with rfl | hn
    · exact sound_blockNode hi.placed ihi
    · exact ihf n hn

/-! ## Bodies that are split -/

/-- While `src` is compiled, the body `inner` of a block is split. -/
inductive Splits (functions : Functions Context) : Bytes → Fragment → Prop
  | own {src : Bytes} {t : Tag} {name : Bytes} {closer : Span} {inner : Fragment}
      (hs : Tag.scan src = some t) (hk : t.kind = .opener) (hn : blockName? t.content = some name)
      (hc : Block.closing? name t.after = some closer)
      (hi : fragment functions 0 (t.after.take closer.start) = .ok inner) :
      Splits functions src inner
  | body {src : Bytes} {t : Tag} {name : Bytes} {closer : Span} {inner : Fragment}
      (hs : Tag.scan src = some t) (hk : t.kind = .opener) (hn : blockName? t.content = some name)
      (hc : Block.closing? name t.after = some closer)
      (h : Splits functions (t.after.take closer.start) inner) : Splits functions src inner
  | afterBlock {src : Bytes} {t : Tag} {name : Bytes} {closer : Span} {own inner : Fragment}
      (hs : Tag.scan src = some t) (hk : t.kind = .opener) (hn : blockName? t.content = some name)
      (hc : Block.closing? name t.after = some closer)
      (hi : fragment functions 0 (t.after.take closer.start) = .ok own)
      (h : Splits functions (t.after.drop closer.stop) inner) : Splits functions src inner
  | afterTag {src : Bytes} {t : Tag} {inner : Fragment} (hs : Tag.scan src = some t)
      (hk : t.kind = .comment ∨ t.kind = .expression) (h : Splits functions t.after inner) :
      Splits functions src inner

/-- The first else tag stands inside the text of a body, and the nodes behind it not before it. -/
def Cuts (inner : Fragment) : Prop :=
  ∀ e later, (inner.nodes.dropWhile fun c => !Block.isElse c) = e :: later →
    e.position ≤ inner.text.length ∧ ∀ c ∈ later, e.position ≤ c.position

theorem Placed.cuts {inner : Fragment} (h : Placed 0 inner) : Cuts inner := by
  obtain ⟨text, nodes⟩ := inner
  intro e later h1
  obtain ⟨main, h2⟩ := List.dropWhile_suffix (l := nodes) fun c => !Block.isElse c
  rw [h1] at h2
  subst h2
  exact ⟨h.inside e (by simp), h.le_later⟩

theorem Splits.cuts {src : Bytes} {inner : Fragment} (h : Splits functions src inner) :
    Cuts inner := by
  induction h with
  | own _ _ _ _ hi => exact (compiles_iff.2 hi).placed.cuts
  | body _ _ _ _ _ ih => exact ih
  | afterBlock _ _ _ _ _ _ ih => exact ih
  | afterTag _ _ _ ih => exact ih

/-- Every node of a compiled template is regular, and every body that is split on the way, whether
the compilation succeeds or not, is cut inside its text. -/
theorem compile_regular (functions : Functions Context) (src : Bytes) (name : String) :
    (∀ root, compile functions src name = .ok root →
      ∀ p ∈ root.preorder, Node.Regular p.1 p.2) ∧
    ∀ inner, Splits functions src inner → Cuts inner := by
  refine ⟨?_, fun inner h => h.cuts⟩
  intro root h
  obtain ⟨f, hf, rfl⟩ := compile_eq_ok_iff.1 h
  refine Node.forall_preorderAs.2 ⟨⟨hf.placed.ordered, ?_, ?_, ?_⟩, ?_, ?_⟩
  · intro c hc
    have h1 := hf.placed.high c hc
    rwa [Nat.zero_add] at h1
  · intro _ i a ha
    simp [rootNode] at ha
  · exact fun hr => absurd rfl hr
  · intro a ha
    simp [rootNode] at ha
  · exact fun c hc => hf.sound c hc

theorem compile_regular_branches :
    ∃ root inner,
      compile ([] : Functions Unit) (Utf8.ofString "a{{#b}}c{{else}}{{d}}{{/b}}") "t" = .ok root ∧
      root.count = 4 ∧ (∀ p ∈ root.preorder, Node.Regular p.1 p.2) ∧
      Splits ([] : Functions Unit) (Utf8.ofString "a{{#b}}c{{else}}{{d}}{{/b}}") inner ∧
      inner.nodes.length = 2 ∧ Cuts inner := by
  have h1 : (compile ([] : Functions Unit)
      (Utf8.ofString "a{{#b}}c{{else}}{{d}}{{/b}}") "t").toOption.map Node.count = some 4 := by
    decide +kernel
  have h2 : (fragment ([] : Functions Unit) 0 (Utf8.ofString "c{{else}}{{d}}")).toOption.map
      (fun f => f.nodes.length) = some 2 := by decide +kernel
  obtain ⟨root, hr, hc⟩ := exists_of_toOption h1
  obtain ⟨inner, hi, hl⟩ := exists_of_toOption h2
  have hs : Tag.scan (Utf8.ofString "a{{#b}}c{{else}}{{d}}{{/b}}") =
      some ⟨.opener, [0x61], [0x62], Utf8.ofString "c{{else}}{{d}}{{/b}}", false⟩ := by
    decide +kernel
  have hn : blockName? [0x62] = some [0x62] := by decide +kernel
  have hb : Block.closing? [0x62] (Utf8.ofString "c{{else}}{{d}}{{/b}}") = some ⟨14, 20⟩ := by
    decide +kernel
  have h5 : Splits ([] : Functions Unit) (Utf8.ofString "a{{#b}}c{{else}}{{d}}{{/b}}") inner :=
    .own hs rfl hn hb hi
  obtain ⟨h3, h4⟩ := compile_regular ([] : Functions Unit) _ "t"
  exact ⟨root, inner, hr, hc, h3 root hr, h5, hl, h4 inner h5⟩

end Template

end ThemeTemplates
