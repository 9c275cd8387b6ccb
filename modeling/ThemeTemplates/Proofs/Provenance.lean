import Mathlib.Data.List.Forall2
import ThemeTemplates.Proofs.Pairing
import ThemeTemplates.Proofs.TreeShape

/-! # Where the text of a tree comes from

A `Trace` gives the source offset of every byte of every block of a tree. `Trace.Fits` says what it
means that the offsets are true and that every position of a child points at the place of its tag;
`Template.exists_trace` finds such offsets for every template that compiles, and no offset twice. So
compiling neither invents nor doubles nor moves literal text.

A fragment of a piece of the source takes its offsets from that piece alone (`Laid`), which is what
keeps the parts of a tree apart.
-/

namespace ThemeTemplates

set_option autoImplicit false

/-- The source offsets of the bytes of a tree, node by node. -/
structure Trace where
  block : List Nat
  arguments : List Trace
  children : List Trace

namespace Trace

mutual

/-- All offsets of a tree. -/
def offsets : Trace → List Nat
  | ⟨block, arguments, children⟩ => block ++ (offsetsAll arguments ++ offsetsAll children)

def offsetsAll : List Trace → List Nat
  | [] => []
  | t :: ts => offsets t ++ offsetsAll ts

end

/-- All of the first offsets come before all of the others. -/
def Below (xs ys : List Nat) : Prop := ∀ x ∈ xs, ∀ y ∈ ys, x < y

/-- What the offsets of one node satisfy, those of its children and arguments being given. -/
structure Fits (src : Bytes) (n : Node) (t : Trace) : Prop where
  source : t.block.map (src[·]?) = n.block.map some
  increasing : t.block.Pairwise (· < ·)
  arguments : t.arguments.length = n.arguments.length
  children : List.Forall₂ (fun c s => Below (t.block.take c.position) s.offsets ∧
    Below s.offsets (t.block.drop c.position)) n.children t.children
  ordered : t.children.Pairwise fun s s' => Below s.offsets s'.offsets
  branch : n.name ≠ Node.elseName → n.elseBranch?.isSome → ∀ s ∈ t.arguments.getLast?,
    Below t.block s.offsets ∧ Below (offsetsAll t.children) s.offsets

/-- The node `m` with the offsets `s` stands in the tree of `n` with the offsets `t`. -/
inductive Within : Node → Trace → Node → Trace → Prop
  | self (n : Node) (t : Trace) : Within n t n t
  | argument {n : Node} {t : Trace} {i : Nat} {a : Node} {r : Trace} {m : Node} {s : Trace}
      (ha : n.arguments[i]? = some a) (hr : t.arguments[i]? = some r) (h : Within a r m s) :
      Within n t m s
  | child {n : Node} {t : Trace} {i : Nat} {c : Node} {r : Trace} {m : Node} {s : Trace}
      (hc : n.children[i]? = some c) (hr : t.children[i]? = some r) (h : Within c r m s) :
      Within n t m s

/-! ## Offsets of several trees -/

theorem offsets_eq (t : Trace) :
    t.offsets = t.block ++ (offsetsAll t.arguments ++ offsetsAll t.children) := by
  cases t
  rw [offsets]

theorem mem_offsetsAll {x : Nat} {ts : List Trace} :
    x ∈ offsetsAll ts ↔ ∃ t ∈ ts, x ∈ t.offsets := by
  induction ts with
  | nil => simp [offsetsAll]
  | cons t ts ih => simp [offsetsAll, ih]

theorem offsetsAll_append (ts us : List Trace) :
    offsetsAll (ts ++ us) = offsetsAll ts ++ offsetsAll us := by
  induction ts with
  | nil => rfl
  | cons t ts ih => simp only [List.cons_append, offsetsAll, ih, List.append_assoc]

theorem nodup_offsetsAll {ts : List Trace}
    (ho : ts.Pairwise fun s s' => Below s.offsets s'.offsets) (hn : ∀ t ∈ ts, t.offsets.Nodup) :
    (offsetsAll ts).Nodup := by
  induction ts with
  | nil => exact List.nodup_nil
  | cons t ts ih =>
    obtain ⟨h1, h2⟩ := List.pairwise_cons.1 ho
    refine List.nodup_append.2 ⟨hn t (by simp), ih h2 fun s hs => hn s (by simp [hs]), ?_⟩
    intro x hx y hy
    obtain ⟨s, hs, hy⟩ := mem_offsetsAll.1 hy
    exact Nat.ne_of_lt (h1 s hs x hx y hy)

theorem Below.mono {xs xs' ys ys' : List Nat} (h : Below xs ys) (hx : xs' ⊆ xs) (hy : ys' ⊆ ys) :
    Below xs' ys' := fun x h1 y h2 => h x (hx h1) y (hy h2)

theorem below_nil (xs : List Nat) : Below xs [] := by simp [Below]

theorem nil_below (ys : List Nat) : Below [] ys := by simp [Below]

theorem Below.ne {xs ys : List Nat} (h : Below xs ys) {x y : Nat} (hx : x ∈ xs) (hy : y ∈ ys) :
    x ≠ y := Nat.ne_of_lt (h x hx y hy)

theorem below_take_drop {xs : List Nat} (h : xs.Pairwise (· < ·)) (i : Nat) :
    Below (xs.take i) (xs.drop i) := by
  rw [← List.take_append_drop i xs, List.pairwise_append] at h
  exact h.2.2

/-! ## Traced trees -/

/-- The offsets are true for every node of the tree. -/
def Traces (src : Bytes) (n : Node) (t : Trace) : Prop := ∀ m s, Within n t m s → Fits src m s

theorem Traces.intro {src : Bytes} {n : Node} {t : Trace} (h : Fits src n t)
    (ha : List.Forall₂ (Traces src) n.arguments t.arguments)
    (hc : List.Forall₂ (Traces src) n.children t.children) : Traces src n t := by
  intro m s hw
  have h1 : ∀ {i : Nat} {ns : List Node} {ts : List Trace} {a : Node} {r : Trace},
      List.Forall₂ (Traces src) ns ts → ns[i]? = some a → ts[i]? = some r → Traces src a r := by
    intro i ns ts a r hf hn ht
    obtain ⟨hi, rfl⟩ := List.getElem?_eq_some_iff.1 hn
    obtain ⟨hi', rfl⟩ := List.getElem?_eq_some_iff.1 ht
    exact List.Forall₂.get hf hi hi'
  cases hw with
  | self => exact h
  | argument hn ht hw => exact h1 ha hn ht m s hw
  | child hn ht hw => exact h1 hc hn ht m s hw

theorem Traces.arguments {src : Bytes} {n : Node} {t : Trace} (h : Traces src n t) :
    List.Forall₂ (Traces src) n.arguments t.arguments := by
  refine List.forall₂_iff_get.2 ⟨(h n t (.self n t)).arguments.symm, ?_⟩
  intro i h1 h2 m s hw
  exact h m s (.argument (List.getElem?_eq_getElem h1) (List.getElem?_eq_getElem h2) hw)

theorem Traces.children {src : Bytes} {n : Node} {t : Trace} (h : Traces src n t) :
    List.Forall₂ (Traces src) n.children t.children := by
  refine List.forall₂_iff_get.2 ⟨(h n t (.self n t)).children.length_eq, ?_⟩
  intro i h1 h2 m s hw
  exact h m s (.child (List.getElem?_eq_getElem h1) (List.getElem?_eq_getElem h2) hw)

/-! ## Leaves and nodes of tags -/

def leaf : Trace := ⟨[], [], []⟩

@[simp] theorem offsets_leaf : leaf.offsets = [] := by simp [leaf, offsets, offsetsAll]

theorem traces_leaf {src : Bytes} {unescaped : Bool} {n : Node} (h : n.IsLeaf unescaped) :
    Traces src n leaf := by
  have h1 : n.arguments = [] := h.arguments
  have h2 : n.children = [] := h.children
  refine Traces.intro ⟨?_, List.Pairwise.nil, ?_, ?_, List.Pairwise.nil, ?_⟩ ?_ ?_
  · rw [h.block]; rfl
  · rw [h1]; rfl
  · rw [h2]; exact .nil
  · intro _ _ s hs
    cases hs
  · rw [h1]; exact .nil
  · rw [h2]; exact .nil

/-- The child `c` of a text with the offsets `os`, of which the first byte has the position `offset`,
and its own trace. -/
structure Part (src : Bytes) (os : List Nat) (offset : Nat) (c : Node) (s : Trace) : Prop where
  traces : Traces src c s
  before : Below (os.take (c.position - offset)) s.offsets
  after : Below s.offsets (os.drop (c.position - offset))
  nodup : s.offsets.Nodup

theorem Part.ne {src : Bytes} {os : List Nat} {offset : Nat} {c : Node} {s : Trace}
    (h : Part src os offset c s) {x y : Nat} (hx : x ∈ os) (hy : y ∈ s.offsets) : x ≠ y := by
  rw [← List.take_append_drop (c.position - offset) os, List.mem_append] at hx
  rcases hx with hx | hx
  · exact h.before.ne hx hy
  · exact (h.after.ne hy hx).symm

theorem ne_of_parts {src : Bytes} {os : List Nat} {offset : Nat} {cs : List Node}
    {ts : List Trace} (h : List.Forall₂ (Part src os offset) cs ts) {x y : Nat} (hx : x ∈ os)
    (hy : y ∈ offsetsAll ts) : x ≠ y := by
  obtain ⟨t, ht, hy⟩ := mem_offsetsAll.1 hy
  obtain ⟨i, hi, rfl⟩ := List.getElem_of_mem ht
  exact (List.Forall₂.get h (h.length_eq ▸ hi) hi).ne hx hy

theorem nodup_of_parts {src : Bytes} {os : List Nat} {offset : Nat} {cs : List Node}
    {ts : List Trace} (h : List.Forall₂ (Part src os offset) cs ts) :
    ∀ t ∈ ts, t.offsets.Nodup := by
  intro t ht
  obtain ⟨i, hi, rfl⟩ := List.getElem_of_mem ht
  exact (List.Forall₂.get h (h.length_eq ▸ hi) hi).nodup

theorem Part.shift {src : Bytes} {xs os : List Nat} {offset : Nat} {c : Node} {s : Trace}
    (h : Part src os (offset + xs.length) c s) (hc : offset + xs.length ≤ c.position)
    (hx : Below xs s.offsets) : Part src (xs ++ os) offset c s := by
  have e : c.position - offset = xs.length + (c.position - (offset + xs.length)) := by omega
  refine ⟨h.traces, ?_, ?_, h.nodup⟩
  · rw [e, List.take_length_add_append]
    intro x h1 y hy
    rcases List.mem_append.1 h1 with h1 | h1
    · exact hx x h1 y hy
    · exact h.before x h1 y hy
  · rw [e, List.drop_length_add_append]
    exact h.after

/-- A child of the text before a cut. -/
theorem Part.take {src : Bytes} {os : List Nat} {c : Node} {s : Trace} (h : Part src os 0 c s)
    (p : Nat) : Part src (os.take p) 0 c s := by
  refine ⟨h.traces, h.before.mono ?_ (List.Subset.refl _), h.after.mono (List.Subset.refl _) ?_,
    h.nodup⟩
  · rw [List.take_take, Nat.min_comm, ← List.take_take]
    exact List.take_subset _ _
  · rw [List.drop_take]
    exact List.take_subset _ _

theorem Traces.rebase {src : Bytes} {n : Node} {t : Trace} (h : Traces src n t) (p : Nat) :
    Traces src (Block.rebase p n) t := by
  have h1 := h n t (.self n t)
  exact Traces.intro ⟨h1.source, h1.increasing, h1.arguments, h1.children, h1.ordered, h1.branch⟩
    h.arguments h.children

/-- A child of the text after a cut. -/
theorem Part.drop {src : Bytes} {os : List Nat} {c : Node} {s : Trace} (h : Part src os 0 c s)
    {p : Nat} (hp : p ≤ c.position) : Part src (os.drop p) 0 (Block.rebase p c) s := by
  refine ⟨h.traces.rebase p, h.before.mono ?_ (List.Subset.refl _),
    h.after.mono (List.Subset.refl _) ?_, h.nodup⟩
  · rw [Block.rebase_position, Nat.sub_zero, Nat.sub_zero, ← List.drop_take]
    exact List.drop_subset _ _
  · rw [Block.rebase_position, Nat.sub_zero, Nat.sub_zero, List.drop_drop,
      Nat.add_sub_cancel' hp]
    exact List.Subset.refl _

theorem exists_of_forall₂_append {α β : Type} {R : α → β → Prop} {xs zs : List α} {y : α} :
    ∀ {us : List β}, List.Forall₂ R (xs ++ y :: zs) us →
      ∃ vs v ws, us = vs ++ v :: ws ∧ List.Forall₂ R xs vs ∧ R y v ∧ List.Forall₂ R zs ws := by
  induction xs with
  | nil =>
    intro us h
    cases h with
    | cons h1 h2 => exact ⟨[], _, _, rfl, .nil, h1, h2⟩
  | cons x xs ih =>
    intro us h
    cases h with
    | cons h1 h2 =>
      obtain ⟨vs, v, ws, rfl, h3, h4, h5⟩ := ih h2
      exact ⟨_ :: vs, v, ws, rfl, .cons h1 h3, h4, h5⟩

section
variable {Context : Type} {functions : Functions Context} {src content block : Bytes}
  {unescaped : Bool} {position : Nat} {children : List Node} {elseBranch : Option Node}
  {os : List Nat} {ts : List Trace} {branch : Option Trace}

/-- The trace of a tag's node: its plain arguments hold no text. -/
def ofTag (content : Bytes) (os : List Nat) (ts : List Trace) (branch : Option Trace) : Trace :=
  ⟨os, ((Arguments.parse content).positional ++ (Arguments.parse content).named).map
    (fun _ => leaf) ++ branch.toList, ts⟩

theorem offsetsAll_leaves {α : Type} (xs : List α) : offsetsAll (xs.map fun _ => leaf) = [] := by
  induction xs with
  | nil => rfl
  | cons x xs ih => rw [List.map_cons, offsetsAll, offsets_leaf, ih, List.append_nil]

theorem offsets_ofTag : (ofTag content os ts branch).offsets =
    os ++ (offsetsAll branch.toList ++ offsetsAll ts) := by
  rw [offsets_eq, ofTag, offsetsAll_append, offsetsAll_leaves, List.nil_append]

theorem offsetsAll_toList : offsetsAll branch.toList = branch.elim [] offsets := by
  cases branch with
  | none => rfl
  | some b => rw [Option.toList_some, offsetsAll, offsetsAll, List.append_nil]; rfl

theorem traces_ofTag (hs : os.map (src[·]?) = block.map some) (hi : os.Pairwise (· < ·))
    (hp : List.Forall₂ (Part src os 0) children ts)
    (ho : ts.Pairwise fun s s' => Below s.offsets s'.offsets)
    (hb : ∀ b ∈ branch, Below os b.offsets ∧ Below (offsetsAll ts) b.offsets)
    (he : List.Forall₂ (Traces src) elseBranch.toList branch.toList) :
    Traces src (Node.ofTag functions content unescaped position block children elseBranch)
      (ofTag content os ts branch) := by
  have hl := he.length_eq
  refine Traces.intro ⟨hs, hi, ?_, hp.imp fun _ _ h => ⟨h.before, h.after⟩, ho, ?_⟩ ?_
    (hp.imp fun _ _ h => h.traces)
  · rw [Node.ofTag_arguments]
    simp only [ofTag, List.length_append, List.length_map, hl]
  · intro _ _ s h
    cases branch with
    | some b =>
      obtain rfl : b = s := by simpa [ofTag] using h
      exact hb b rfl
    | none =>
      have h1 := List.mem_of_getLast? h
      obtain rfl : s = leaf := by
        simp only [ofTag, Option.toList_none, List.append_nil, List.mem_map] at h1
        obtain ⟨token, -, h2⟩ := h1
        exact h2.symm
      rw [offsets_leaf]
      exact ⟨below_nil _, below_nil _⟩
  · rw [Node.ofTag_arguments]
    refine List.rel_append ?_ he
    refine List.forall₂_map_left_iff.2 (List.forall₂_map_right_iff.2 ?_)
    exact List.forall₂_same.2 fun token _ =>
      traces_leaf (Node.isLeaf_ofToken functions unescaped token)

/-- No offset of a tag's node occurs twice if none of its parts has one twice. -/
theorem nodup_ofTag (hi : os.Pairwise (· < ·)) (hp : List.Forall₂ (Part src os 0) children ts)
    (ho : ts.Pairwise fun s s' => Below s.offsets s'.offsets)
    (hb : ∀ b ∈ branch, b.offsets.Nodup ∧ Below os b.offsets ∧ Below (offsetsAll ts) b.offsets) :
    (ofTag content os ts branch).offsets.Nodup := by
  have h1 : os.Nodup := hi.imp fun h => Nat.ne_of_lt h
  have h2 : ∀ x ∈ os, ∀ y ∈ offsetsAll ts, x ≠ y := fun x hx y hy => ne_of_parts hp hx hy
  have hn := nodup_of_parts hp
  rw [offsets_ofTag, offsetsAll_toList]
  cases branch with
  | none =>
    simp only [Option.elim_none, List.nil_append]
    exact List.nodup_append.2 ⟨h1, nodup_offsetsAll ho hn, h2⟩
  | some b =>
    obtain ⟨h3, h4, h5⟩ := hb b rfl
    simp only [Option.elim_some]
    refine List.nodup_append.2 ⟨h1, List.nodup_append.2 ⟨h3, nodup_offsetsAll ho hn, ?_⟩, ?_⟩
    · exact fun x hx y hy => (h5.ne hy hx).symm
    · intro x hx y hy
      rcases List.mem_append.1 hy with hy | hy
      · exact h4.ne hx hy
      · exact h2 x hx y hy

end

end Trace

namespace Template

open Trace

variable {Context : Type} {functions : Functions Context} {src : Bytes} {lo hi offset : Nat}

/-! ## Traced fragments -/

/-- The fragment, whose first byte has the position `offset`, with offsets of which all lie between
two bounds. -/
structure Laid (src : Bytes) (lo hi offset : Nat) (f : Fragment) (os : List Nat) (ts : List Trace) :
    Prop where
  source : os.map (src[·]?) = f.text.map some
  increasing : os.Pairwise (· < ·)
  within : ∀ x ∈ os ++ offsetsAll ts, lo ≤ x ∧ x < hi
  parts : List.Forall₂ (Part src os offset) f.nodes ts
  ordered : ts.Pairwise fun s s' => Below s.offsets s'.offsets

/-- A node in front of a fragment, from text before that of the fragment. -/
theorem Laid.pushNode {f : Fragment} {os : List Nat} {ts : List Trace} {mid : Nat}
    (h : Laid src mid hi offset f os ts) {n : Node} {t : Trace} (hp : n.position = offset)
    (ht : Traces src n t) (hn : t.offsets.Nodup) (hw : ∀ x ∈ t.offsets, lo ≤ x ∧ x < mid)
    (hm : mid ≤ hi) (hl : lo ≤ mid) :
    Laid src lo hi offset (f.push [] (some n)) os (t :: ts) := by
  refine ⟨h.source, h.increasing, ?_, .cons ⟨ht, ?_, ?_, hn⟩ h.parts, ?_⟩
  · intro x hx
    rw [List.mem_append, offsetsAll, List.mem_append] at hx
    rcases hx with hx | hx | hx
    · have h1 := h.within x (List.mem_append_left _ hx)
      omega
    · have h1 := hw x hx
      omega
    · have h1 := h.within x (List.mem_append_right _ hx)
      omega
  · rw [hp, Nat.sub_self, List.take_zero]
    exact nil_below _
  · rw [hp, Nat.sub_self, List.drop_zero]
    intro x hx y hy
    have h1 := hw x hx
    have h2 := h.within y (List.mem_append_left _ hy)
    omega
  · refine List.pairwise_cons.2 ⟨?_, h.ordered⟩
    intro s hs x hx y hy
    have h1 := hw x hx
    have h2 := h.within y (List.mem_append_right _ (mem_offsetsAll.2 ⟨s, hs, hy⟩))
    omega

theorem map_range' {w : Bytes} (h : w <+: src.drop lo) :
    (List.range' lo w.length).map (src[·]?) = w.map some := by
  obtain ⟨r, hr⟩ := h
  apply List.ext_getElem (by simp)
  intro i h1 h2
  have hi : i < w.length := by simpa using h1
  rw [List.getElem_map, List.getElem_map, List.getElem_range', Nat.one_mul, ← List.getElem?_drop,
    ← hr, List.getElem?_append_left hi, List.getElem?_eq_getElem hi]

/-- Literal text in front of a fragment. -/
theorem Laid.pushText {f : Fragment} {os : List Nat} {ts : List Trace} {w : Bytes} {mid : Nat}
    (h : Laid src mid hi (offset + w.length) f os ts) (hf : Placed (offset + w.length) f)
    (hw : w <+: src.drop lo) (hm : lo + w.length ≤ mid) (hh : mid ≤ hi) :
    Laid src lo hi offset (f.push w none) (List.range' lo w.length ++ os) ts := by
  have h0 : ∀ x ∈ List.range' lo w.length, lo ≤ x ∧ x < mid := by
    intro x hx
    rw [List.mem_range'_1] at hx
    omega
  have h1 : ∀ x ∈ os ++ offsetsAll ts, mid ≤ x := fun x hx => (h.within x hx).1
  refine ⟨?_, ?_, ?_, ?_, h.ordered⟩
  · rw [List.map_append, map_range' hw, h.source, ← List.map_append]
    rfl
  · refine List.pairwise_append.2 ⟨List.pairwise_lt_range', h.increasing, ?_⟩
    intro x hx y hy
    have h2 := h0 x hx
    have h3 := h1 y (List.mem_append_left _ hy)
    omega
  · intro x hx
    rw [List.append_assoc, List.mem_append] at hx
    rcases hx with hx | hx
    · have h2 := h0 x hx
      omega
    · have h2 := h.within x hx
      omega
  · -- the nodes stand behind the new text, so a cut at one of them cuts behind the new offsets
    refine List.forall₂_iff_get.2 ⟨h.parts.length_eq, ?_⟩
    intro i hi1 hi2
    have h2 := List.Forall₂.get h.parts hi1 hi2
    have h3 := hf.low _ (List.getElem_mem hi1)
    have e : w.length = (List.range' lo w.length 1).length := List.length_range'.symm
    rw [e] at h2 h3
    refine h2.shift h3 ?_
    intro x hx y hy
    have h4 := h0 x hx
    have h5 := h1 y (List.mem_append_right _ (mem_offsetsAll.2 ⟨_, List.get_mem ts _, hy⟩))
    omega

/-! ## Blocks -/

/-- The else branch of a body: its text is the rest of the body's, its children are those behind the
tag, and its arguments are the tag's. -/
theorem traces_elseBranch {text : Bytes} {main later : List Node} {e : Node} {os : List Nat}
    {ms ls : List Trace} {te : Trace} (hp : Placed 0 ⟨text, main ++ e :: later⟩)
    (he : Block.isElse e = true) (h : Laid src lo hi 0 ⟨text, main ++ e :: later⟩ os (ms ++ te :: ls))
    (hm : List.Forall₂ (Part src os 0) main ms) (hte : Part src os 0 e te)
    (hl : List.Forall₂ (Part src os 0) later ls) :
    Traces src { e with
        block := text.drop e.position
        children := later.map (Block.rebase e.position) } ⟨os.drop e.position, te.arguments, ls⟩ ∧
      (Trace.mk (os.drop e.position) te.arguments ls).offsets.Nodup ∧
      Below (os.take e.position) (Trace.mk (os.drop e.position) te.arguments ls).offsets ∧
      Below (offsetsAll ms) (Trace.mk (os.drop e.position) te.arguments ls).offsets := by
  obtain ⟨-, hpe, hpm⟩ := List.pairwise_append.1 hp.ordered
  obtain ⟨-, htl, hms⟩ := List.pairwise_append.1 h.ordered
  obtain ⟨hte', hls⟩ := List.pairwise_cons.1 htl
  have hlater : ∀ c ∈ later, e.position ≤ c.position := (List.pairwise_cons.1 hpe).1
  have hmain : ∀ c ∈ main, c.position ≤ e.position := fun c hc => hpm c hc e (by simp)
  have hos : (os.drop e.position).Pairwise (· < ·) := h.increasing.sublist (List.drop_sublist _ _)
  have hparts : List.Forall₂ (Part src (os.drop e.position) 0)
      (later.map (Block.rebase e.position)) ls := by
    refine List.forall₂_map_left_iff.2 (List.forall₂_iff_get.2 ⟨hl.length_eq, ?_⟩)
    intro i h1 h2
    exact (List.Forall₂.get hl h1 h2).drop (hlater _ (List.get_mem later _))
  -- the offsets of the tag itself stand between those of the two branches
  have hargs : offsetsAll te.arguments ⊆ te.offsets := by
    rw [offsets_eq]
    exact fun x hx => List.mem_append_right _ (List.mem_append_left _ hx)
  have hafter : Below te.offsets (os.drop e.position) := hte.after
  have hbehind : Below te.offsets (offsetsAll ls) := by
    intro x hx y hy
    obtain ⟨s, hs, hy⟩ := mem_offsetsAll.1 hy
    exact hte' s hs x hx y hy
  refine ⟨?_, ?_, ?_, ?_⟩
  · have h1 := hte.traces e te (.self e te)
    refine Traces.intro ⟨?_, hos, h1.arguments, hparts.imp fun _ _ h => ⟨h.before, h.after⟩, hls, ?_⟩
      hte.traces.arguments (hparts.imp fun _ _ h => h.traces)
    · rw [List.map_drop, h.source, List.map_drop]
    · exact fun hne => absurd (Block.isElse_eq_true_iff.1 he) hne
  · have h1 := hte.nodup
    rw [offsets_eq, List.nodup_append, List.nodup_append] at h1
    rw [offsets_eq]
    refine List.nodup_append.2 ⟨hos.imp fun h => Nat.ne_of_lt h, List.nodup_append.2
      ⟨h1.2.1.1, nodup_offsetsAll hls (nodup_of_parts hl), ?_⟩, ?_⟩
    · exact fun x hx y hy => hbehind.ne (hargs hx) hy
    · intro x hx y hy
      rcases List.mem_append.1 hy with hy | hy
      · exact (hafter.ne (hargs hy) hx).symm
      · exact ne_of_parts hparts hx hy
  · intro x hx y hy
    rw [offsets_eq, List.mem_append, List.mem_append] at hy
    rcases hy with hy | hy | hy
    · exact below_take_drop h.increasing e.position x hx y hy
    · exact hte.before x hx y (hargs hy)
    · obtain ⟨s, hs, hy⟩ := mem_offsetsAll.1 hy
      obtain ⟨i, hi, rfl⟩ := List.getElem_of_mem hs
      have h1 := List.Forall₂.get hl (hl.length_eq ▸ hi) hi
      refine h1.before x (List.take_subset_take_left _ ?_ hx) y hy
      exact hlater _ (List.get_mem later _)
  · intro x hx y hy
    obtain ⟨s, hs, hx'⟩ := mem_offsetsAll.1 hx
    rw [offsets_eq, List.mem_append, List.mem_append] at hy
    rcases hy with hy | hy | hy
    · obtain ⟨i, hi, rfl⟩ := List.getElem_of_mem hs
      have h1 := List.Forall₂.get hm (hm.length_eq ▸ hi) hi
      refine h1.after x hx' y (List.drop_subset_drop_left _ ?_ hy)
      exact hmain _ (List.get_mem main _)
    · exact hms s hs te (by simp) x hx' y (hargs hy)
    · obtain ⟨s', hs', hy⟩ := mem_offsetsAll.1 hy
      exact hms s hs s' (by simp [hs']) x hx' y hy

/-- The node of a block takes its offsets from the body. -/
theorem exists_trace_blockNode (functions : Functions Context) (t : Tag) (position : Nat)
    {inner : Fragment} {os : List Nat} {ts : List Trace} (hp : Placed 0 inner)
    (h : Laid src lo hi 0 inner os ts) :
    ∃ r, Traces src (blockNode functions t position inner) r ∧ r.offsets.Nodup ∧
      ∀ x ∈ r.offsets, lo ≤ x ∧ x < hi := by
  obtain ⟨text, nodes⟩ := inner
  unfold blockNode
  rcases Block.else_cases nodes with hn | ⟨main, e, later, rfl, hm, he⟩
  · rw [Block.splitElse_of_forall hn]
    refine ⟨ofTag t.content os ts none, ?_, ?_, ?_⟩
    · exact traces_ofTag h.source h.increasing h.parts h.ordered (by simp) .nil
    · exact nodup_ofTag h.increasing h.parts h.ordered (by simp)
    · intro x hx
      rw [offsets_ofTag, offsetsAll_toList, Option.elim_none, List.nil_append] at hx
      exact h.within x hx
  · rw [Block.splitElse_append hm he]
    obtain ⟨ms, te, ls, rfl, h1, h2, h3⟩ := exists_of_forall₂_append h.parts
    obtain ⟨h4, h5, h6, h7⟩ := traces_elseBranch hp he h h1 h2 h3
    have h8 : List.Forall₂ (Part src (os.take e.position) 0) main ms :=
      h1.imp fun _ _ h => h.take e.position
    have h9 := (List.pairwise_append.1 h.ordered).1
    have h10 : (os.take e.position).Pairwise (· < ·) := h.increasing.sublist (List.take_sublist _ _)
    refine ⟨ofTag t.content (os.take e.position) ms
      (some ⟨os.drop e.position, te.arguments, ls⟩), ?_, ?_, ?_⟩
    · refine traces_ofTag ?_ h10 h8 h9 ?_ (.cons h4 .nil)
      · rw [List.map_take, h.source, List.map_take]
      · rintro _ ⟨⟩
        exact ⟨h6, h7⟩
    · refine nodup_ofTag h10 h8 h9 ?_
      rintro _ ⟨⟩
      exact ⟨h5, h6, h7⟩
    · intro x hx
      refine h.within x ?_
      rw [offsets_ofTag, offsetsAll_toList, Option.elim_some, offsets_eq] at hx
      rw [offsetsAll_append, offsetsAll, offsets_eq]
      simp only [List.mem_append] at hx ⊢
      rcases hx with hx | (hx | hx | hx) | hx
      · exact .inl (List.mem_of_mem_take hx)
      · exact .inl (List.mem_of_mem_drop hx)
      · exact .inr (.inr (.inl (.inr (.inl hx))))
      · exact .inr (.inr (.inr hx))
      · exact .inr (.inl hx)

/-! ## The whole source -/

theorem prefix_drop {a b : Bytes} (h : a ++ b <+: src.drop lo) : b <+: src.drop (lo + a.length) := by
  obtain ⟨r, hr⟩ := h
  rw [← List.drop_drop, ← hr, List.append_assoc, List.drop_left]
  exact ⟨r, rfl⟩

/-- What is left of a piece of the source behind its first tag. -/
theorem after_prefix {s : Bytes} {t : Tag} (ht : Tag.scan s = some t) (hs : s <+: src.drop lo) :
    t.before <+: src.drop lo ∧ ∃ mid, lo + t.before.length ≤ mid ∧
      mid + t.after.length = lo + s.length ∧ t.after <+: src.drop mid := by
  obtain ⟨body, e, -⟩ := Tag.exists_of_scan ht
  rw [e] at hs
  have h1 : s.length = (t.before ++ (Tag.openMark ++ body)).length + t.after.length := by
    rw [← List.length_append, ← e]
  refine ⟨?_, lo + (t.before ++ (Tag.openMark ++ body)).length, ?_, ?_, prefix_drop hs⟩
  · rw [List.append_assoc] at hs
    exact (List.prefix_append _ _).trans hs
  · rw [List.length_append]
    omega
  · omega

theorem Compiles.exists_laid {s : Bytes} {f : Fragment} (h : Compiles functions offset s f) :
    ∀ lo, s <+: src.drop lo → ∃ os ts, Laid src lo (lo + s.length) offset f os ts := by
  induction h with
  | literal _ =>
    intro lo hs
    rename_i offset s _
    refine ⟨List.range' lo s.length, [], map_range' hs, List.pairwise_lt_range', ?_, .nil, .nil⟩
    intro x hx
    simpa [offsetsAll, List.mem_range'_1] using hx
  | comment ht hk hf ih =>
    intro lo hs
    obtain ⟨h1, mid, h2, h3, h4⟩ := after_prefix ht hs
    obtain ⟨os, ts, h5⟩ := ih mid h4
    exact ⟨_, _, (h3 ▸ h5).pushText hf.placed h1 h2 (by omega)⟩
  | @expression offset s t f ht hk hf ih =>
    intro lo hs
    obtain ⟨h1, mid, h2, h3, h4⟩ := after_prefix ht hs
    obtain ⟨os, ts, h5⟩ := ih mid h4
    have h6 : Traces src (expressionNode functions t (offset + t.position))
        (ofTag t.content [] [] none) :=
      traces_ofTag rfl List.Pairwise.nil .nil List.Pairwise.nil (by simp) .nil
    have h7 : Laid src mid (lo + s.length) (offset + t.position)
        (f.push [] (some (expressionNode functions t (offset + t.position)))) os
        (ofTag t.content [] [] none :: ts) :=
      (h3 ▸ h5).pushNode rfl h6 (by simp [offsets_ofTag, offsetsAll])
        (by simp [offsets_ofTag, offsetsAll]) (by omega) (Nat.le_refl _)
    have h8 : Placed (offset + t.position)
        (f.push [] (some (expressionNode functions t (offset + t.position)))) :=
      hf.placed.push_node rfl
    exact ⟨_, _, h7.pushText h8 h1 h2 (by omega)⟩
  | @block offset s t name closer inner f ht hk hn hc hi hf ihi ihf =>
    intro lo hs
    obtain ⟨h1, mid, h2, h3, h4⟩ := after_prefix ht hs
    obtain ⟨h5, h6⟩ := Block.bounds_of_closing? hc
    -- the body and the rest are pieces of the source, one behind the other
    have hbody : t.after.take closer.start <+: src.drop mid := (List.take_prefix _ _).trans h4
    have hrest : t.after.drop closer.stop <+: src.drop (mid + (t.after.take closer.stop).length) :=
      prefix_drop (by rwa [List.take_append_drop])
    obtain ⟨os, ts, h7⟩ := ihi mid hbody
    obtain ⟨os', ts', h8⟩ := ihf _ hrest
    obtain ⟨r, h9, h10, h11⟩ := exists_trace_blockNode functions t (offset + t.position) hi.placed h7
    have e : mid + (t.after.take closer.stop).length + (t.after.drop closer.stop).length =
        lo + s.length := by
      rw [Nat.add_assoc, ← List.length_append, List.take_append_drop, h3]
    rw [e] at h8
    have h12 : (t.after.take closer.start).length ≤ (t.after.take closer.stop).length := by
      rw [List.length_take, List.length_take]
      omega
    have h13 : Laid src mid (lo + s.length) (offset + t.position)
        (f.push [] (some (blockNode functions t (offset + t.position) inner))) os' (r :: ts') :=
      h8.pushNode rfl h9 h10 (fun x hx => by
        have h14 := h11 x hx
        omega) (by omega) (by omega)
    have h15 : Placed (offset + t.position)
        (f.push [] (some (blockNode functions t (offset + t.position) inner))) :=
      hf.placed.push_node rfl
    exact ⟨_, _, h13.pushText h15 h1 h2 (by omega)⟩

/-- Every template that compiles has a trace: each byte of a block has a place in the source, no two
have the same one, and their order is that of the tree. -/
theorem exists_trace {functions : Functions Context} {src : Bytes} {name : String} {root : Node}
    (h : compile functions src name = .ok root) :
    ∃ t : Trace, (∀ m s, Within root t m s → Fits src m s) ∧ t.offsets.Nodup := by
  obtain ⟨f, hf, rfl⟩ := compile_eq_ok_iff.1 h
  obtain ⟨os, ts, h1⟩ := hf.exists_laid 0 (List.prefix_refl src)
  refine ⟨⟨os, [], ts⟩, ?_, ?_⟩
  · refine Traces.intro ⟨h1.source, h1.increasing, rfl, h1.parts.imp fun _ _ h => ⟨h.before, h.after⟩,
      h1.ordered, ?_⟩ .nil (h1.parts.imp fun _ _ h => h.traces)
    intro _ _ s hs
    cases hs
  · rw [offsets_eq]
    refine List.nodup_append.2 ⟨h1.increasing.imp fun h => Nat.ne_of_lt h, ?_, ?_⟩
    · exact nodup_offsetsAll h1.ordered (nodup_of_parts h1.parts)
    · exact fun x hx y hy => ne_of_parts h1.parts hx hy

theorem exists_trace_branches :
    ∃ (root : Node) (t : Trace),
      compile ([] : Functions Unit) (Utf8.ofString "a{{#b}}c{{else}}{{d}}{{/b}}") "t" = .ok root ∧
      root.count = 4 ∧ (∀ m s, Within root t m s →
        Fits (Utf8.ofString "a{{#b}}c{{else}}{{d}}{{/b}}") m s) ∧
      t.offsets.Nodup := by
  have h1 : (compile ([] : Functions Unit)
      (Utf8.ofString "a{{#b}}c{{else}}{{d}}{{/b}}") "t").toOption.map Node.count = some 4 := by
    decide +kernel
  obtain ⟨root, hr, hc⟩ := exists_of_toOption h1
  obtain ⟨t, h2, h3⟩ := exists_trace hr
  exact ⟨root, t, hr, hc, h2, h3⟩

end Template

end ThemeTemplates
