import Mathlib.Algebra.GroupWithZero.Nat
import ThemeTemplates.Proofs.FirstTag
import ThemeTemplates.Proofs.PairMatches
import ThemeTemplates.Proofs.Passes
import ThemeTemplates.Proofs.TreeShape

/-! # How large a compiled template is

`Node.weight` counts two for each node of a tree and one for each byte of its blocks. Every node is
paid for by bytes of its own: two of the braces of its tag for the node of a tag, and two of the
content for each argument (`Arguments.length_parse`). The text that a pass leaves pays for the rest,
so a template weighs no more than its source (`Swept.weight_le`).

`Template.compile_bounded` says this together with what makes the passes end: each leaves a text
that is shorter, by the four braces of a tag at least.
-/

namespace ThemeTemplates

set_option autoImplicit false

/-! ## Fields and pairs -/

namespace Bytes

theorem sum_length_pieces (separates : UInt8 → Bool) (s : Bytes) :
    ((pieces separates s).map List.length).sum + (pieces separates s).length = s.length + 1 := by
  induction s with
  | nil => rfl
  | cons b s ih =>
    obtain ⟨ps, hp⟩ : ∃ ps, pieces separates s = (s.takeWhile fun b => !separates b) :: ps :=
      List.head?_eq_some_iff.1 (head?_pieces separates s)
    rw [hp] at ih
    cases hb : separates b
    all_goals
      simp only [pieces, hb, hp, List.map_cons, List.sum_cons, List.length_cons, List.length_nil]
        at ih ⊢
      omega

theorem length_filter_le_sum (ps : List Bytes) :
    (ps.filter fun p => !p.isEmpty).length ≤ (ps.map List.length).sum := by
  induction ps with
  | nil => simp
  | cons p ps ih =>
    rw [List.map_cons, List.sum_cons]
    cases p with
    | nil => exact ih.trans (Nat.le_add_left _ _)
    | cons b p =>
      rw [List.filter_cons_of_pos (by rfl), List.length_cons, List.length_cons]
      omega

/-- A field has a byte, and a blank stands between two fields. -/
theorem length_fields (s : Bytes) : 2 * (fields s).length ≤ s.length + 1 := by
  have h1 := sum_length_pieces isBlank s
  have h2 : (fields s).length ≤ (pieces isBlank s).length := List.length_filter_le _ _
  have h3 : (fields s).length ≤ ((pieces isBlank s).map List.length).sum := length_filter_le_sum _
  omega

end Bytes

namespace Arguments

/-- Each pair takes four bytes from what is split at blanks. -/
theorem Divides.length_le {s : Bytes} {d : Division} (h : Divides s d) :
    d.rest.length + 4 * d.pairs.length ≤ s.length := by
  induction h with
  | last => simp [Division.rest]
  | @pair src gap s key value rest d e h hf hd ih =>
    have h1 := hf.length_le
    simp only [Division.rest, List.map_cons, List.flatten_cons, List.length_append,
      List.length_cons] at ih ⊢
    rw [e, List.length_append]
    omega

/-- The arguments of a content take two bytes of it each. -/
theorem length_parse (src : Bytes) :
    2 * ((parse src).positional.length + (parse src).named.length) ≤ src.length := by
  have h1 := (divides_iff.2 rfl : Divides src (division src)).length_le
  have h2 := Bytes.length_fields (division src).rest
  simp only [parse_eq, List.length_tail, List.length_map]
  omega

end Arguments

/-! ## Tags -/

namespace Tag

/-- A tag takes four braces, and its content. -/
theorem length_content_of_scan {src : Bytes} {t : Tag} (h : scan src = some t) :
    t.excise.length + t.content.length + 4 ≤ src.length := by
  obtain ⟨interior, dropped, e, hc⟩ := exists_interior_of_scan h
  have h1 := hc.length_le
  rw [e, excise]
  simp only [openMark, closeMark, List.length_append, List.length_cons, List.length_nil]
  omega

end Tag

/-! ## The weight of a tree -/

namespace Node

mutual

/-- Two for each node of a tree, and one for each byte of its blocks. -/
def weight : Node → Nat
  | ⟨_, _, _, _, block, arguments, children⟩ =>
    2 + block.length + weightAll arguments + weightAll children

def weightAll : List Node → Nat
  | [] => 0
  | n :: ns => weight n + weightAll ns

end

mutual

theorem weight_eq (role : Role) : ∀ n : Node, weight n =
    2 * count n + ((preorderAs role n).map fun p => p.2.block.length).sum
  | ⟨_, _, _, _, block, arguments, children⟩ => by
    simp only [weight, count, preorderAs, List.map_cons, List.map_append, List.sum_cons,
      List.sum_append, weightAll_eq .argument arguments, weightAll_eq .child children]
    omega

theorem weightAll_eq (role : Role) : ∀ ns : List Node, weightAll ns =
    2 * countAll ns + ((preorderAll role ns).map fun p => p.2.block.length).sum
  | [] => rfl
  | n :: ns => by
    simp only [weightAll, countAll, preorderAll, List.map_append, List.sum_append,
      weight_eq role n, weightAll_eq role ns]
    omega

end

theorem count_pos (n : Node) : 0 < n.count := by
  rw [← length_preorder]
  cases n
  exact Nat.succ_pos _

theorem weight_node (n : Node) :
    n.weight = 2 + n.block.length + weightAll n.arguments + weightAll n.children := by
  cases n
  rfl

theorem weightAll_append (ms ns : List Node) :
    weightAll (ms ++ ns) = weightAll ms + weightAll ns := by
  induction ms with
  | nil => simp [weightAll]
  | cons m ms ih => simp only [List.cons_append, weightAll, ih, Nat.add_assoc]

theorem weightAll_rebase (start : Nat) (ns : List Node) :
    weightAll (ns.map (Block.rebase start)) = weightAll ns := by
  induction ns with
  | nil => rfl
  | cons n ns ih => rw [List.map_cons, weightAll, weightAll, ih, weight_node, weight_node n]; rfl

section
variable {Context : Type} (functions : Functions Context)

theorem weightAll_ofToken (unescaped : Bool) (tokens : List Bytes) :
    weightAll (tokens.map (ofToken functions unescaped)) = 2 * tokens.length := by
  induction tokens with
  | nil => rfl
  | cons token tokens ih =>
    rw [List.map_cons, weightAll, ih, List.length_cons]
    simp only [ofToken, weight, weightAll, List.length_nil]
    omega

/-- What the content of a tag pays for: the arguments of its node. -/
theorem weight_ofTag_le (content : Bytes) (unescaped : Bool) (position : Nat) (block : Bytes)
    (children : List Node) (elseBranch : Option Node) :
    (ofTag functions content unescaped position block children elseBranch).weight ≤
      2 + content.length + block.length + weightAll elseBranch.toList + weightAll children := by
  have h := Arguments.length_parse content
  have e1 : (ofTag functions content unescaped position block children elseBranch).block = block :=
    rfl
  have e2 : (ofTag functions content unescaped position block children elseBranch).children =
    children := rfl
  rw [weight_node, ofTag_arguments, weightAll_append, weightAll_ofToken, List.length_append, e1, e2]
  omega

end

end Node

/-! ## The weight of a template -/

namespace Template

open Node

variable {Context : Type} {functions : Functions Context} {src : Bytes}

/-- An else branch takes its text from the body and its arguments from its tag. -/
theorem weight_blockNode_le (functions : Functions Context) (t : Tag) (position : Nat)
    (inner : Fragment) :
    (blockNode functions t position inner).weight ≤
      2 + t.content.length + inner.text.length + weightAll inner.nodes := by
  obtain ⟨text, nodes⟩ := inner
  unfold blockNode
  rcases Block.else_cases nodes with h | ⟨main, e, later, rfl, hm, he⟩
  · rw [Block.splitElse_of_forall h]
    exact weight_ofTag_le functions _ _ _ _ _ none
  · rw [Block.splitElse_append hm he]
    refine (weight_ofTag_le functions _ _ _ _ _ _).trans ?_
    have h1 : (text.take e.position).length + (text.drop e.position).length = text.length := by
      rw [← List.length_append, List.take_append_drop]
    have h2 := weight_node e
    simp only [Option.toList_some, weightAll, weight, weightAll_append, weightAll_rebase]
    omega

theorem weightAll_tagNode?_le (functions : Functions Context) (t : Tag) :
    weightAll (tagNode? functions t).toList ≤ 2 + t.content.length := by
  unfold tagNode?
  split
  next =>
    have h := weight_ofTag_le functions t.content t.unescaped t.position [] [] none
    simpa only [Option.toList_some, Option.toList_none, weightAll, expressionNode, List.length_nil,
      Nat.add_zero] using h
  next => exact Nat.zero_le _

theorem Swept.weight_le {f : Fragment} (h : Swept functions src f) :
    f.text.length + weightAll f.nodes ≤ src.length := by
  induction h with
  | done h => exact Nat.le_refl _
  | @tag src rest t f h hf ih =>
    obtain ⟨hs, rfl, -⟩ := scan_of_pass_tag h
    have h1 := Tag.length_content_of_scan hs
    have h2 := weightAll_tagNode?_le functions t
    simp only [Fragment.push, List.nil_append, weightAll_append]
    omega
  | @block src body rest t inner f h hi hf ihi ihf =>
    obtain ⟨hs, -, name, closer, -, hc, rfl, rfl⟩ := scan_of_pass_block h
    have h1 := Tag.length_content_of_scan hs
    have h2 := weight_blockNode_le functions t t.position inner
    have h3 := Block.bounds_of_closing? hc
    rw [Tag.excise, List.length_append] at h1
    rw [List.length_take] at ihi
    rw [List.length_append, List.length_drop] at ihf
    simp only [Fragment.push, List.nil_append, weightAll_append, Option.toList_some, weightAll]
    omega

/-! ## The end of the passes -/

/-- A pass over the first text goes on with the second, or hands it on as a body. -/
inductive Leads : Bytes → Bytes → Prop
  | tag {src rest : Bytes} {t : Tag} (h : pass src = .tag t rest) : Leads src rest
  | body {src body rest : Bytes} {t : Tag} (h : pass src = .block t body rest) : Leads src body
  | block {src body rest : Bytes} {t : Tag} (h : pass src = .block t body rest) : Leads src rest

theorem Leads.length_lt {next : Bytes} (h : Leads src next) : next.length < src.length := by
  cases h with
  | tag h =>
    have h1 := length_of_pass_tag h
    omega
  | body h =>
    have h1 := length_of_pass_block h
    omega
  | block h =>
    have h1 := length_of_pass_block h
    omega

theorem wellFounded_leads : WellFounded fun next src => Leads src next :=
  Subrelation.wf Leads.length_lt (measure List.length).wf

/-- A compilation goes on after each pass with a text that is shorter by four bytes, and a body and
the text that is left are shorter together, so the passes end; and a compiled template has two bytes
of its source for each of its nodes but the root, beside the bytes of its blocks. -/
theorem compile_bounded (functions : Functions Context) (src : Bytes) (name : String) :
    (∀ t rest, pass src = .tag t rest →
      fragment functions 0 src =
        (fragment functions 0 rest).map (.push [] (tagNode? functions t)) ∧
      rest.length + 4 ≤ src.length) ∧
    (∀ t body rest, pass src = .block t body rest →
      fragment functions 0 src = ((fragment functions 0 body).bind fun inner =>
        (fragment functions 0 rest).map
          (.push [] (some (blockNode functions t t.position inner)))) ∧
      rest.length + 4 ≤ src.length ∧ body.length + rest.length < src.length) ∧
    Acc (fun next src => Leads src next) src ∧
    ∀ root, compile functions src name = .ok root →
      2 * (root.count - 1) + (root.preorder.map fun p => p.2.block.length).sum ≤ src.length := by
  refine ⟨?_, ?_, wellFounded_leads.apply src, ?_⟩
  · exact fun t rest h => ⟨fragment_of_pass_tag functions h, length_of_pass_tag h⟩
  · intro t body rest h
    have h1 := length_of_pass_block h
    exact ⟨fragment_of_pass_block functions h, by omega, by omega⟩
  · intro root h
    obtain ⟨f, hf, rfl⟩ := exists_swept h
    have h1 := hf.weight_le
    have h2 := weight_eq .root (rootNode functions name f)
    rw [weight_node] at h2
    have h3 : weightAll (rootNode functions name f).arguments = 0 := rfl
    have h4 : (rootNode functions name f).block = f.text := rfl
    have h5 : (rootNode functions name f).children = f.nodes := rfl
    have h6 := count_pos (rootNode functions name f)
    rw [h3, h4, h5] at h2
    rw [preorder]
    omega

theorem compile_bounded_block :
    let src := Utf8.ofString "a{{#b x}}{{c}}{{/b}}{{d}}"
    ∃ t body rest root, pass src = .block t body rest ∧ rest.length + 4 ≤ src.length ∧
      body.length + rest.length < src.length ∧
      (∃ t' rest', pass body = .tag t' rest' ∧ rest'.length + 4 ≤ body.length) ∧
      compile ([] : Functions Unit) src "t" = .ok root ∧ root.count = 5 ∧
      2 * (root.count - 1) + (root.preorder.map fun p => p.2.block.length).sum ≤ src.length := by
  intro src
  have h1 : pass src =
      .block ⟨.opener, [0x61], Utf8.ofString "b x", Utf8.ofString "{{c}}{{/b}}{{d}}", false⟩
        (Utf8.ofString "{{c}}") (Utf8.ofString "a{{d}}") := by decide +kernel
  have h2 : pass (Utf8.ofString "{{c}}") = .tag ⟨.expression, [], [0x63], [], false⟩ [] := by
    decide +kernel
  have h3 : (compile ([] : Functions Unit) src "t").toOption.map Node.count = some 5 := by
    decide +kernel
  obtain ⟨root, hr, hc⟩ := exists_of_toOption h3
  obtain ⟨-, hb, -, hs⟩ := compile_bounded ([] : Functions Unit) src "t"
  obtain ⟨ht, -⟩ := compile_bounded ([] : Functions Unit) (Utf8.ofString "{{c}}") "t"
  obtain ⟨-, h4, h5⟩ := hb _ _ _ h1
  exact ⟨_, _, _, root, h1, h4, h5, ⟨_, _, h2, (ht _ _ h2).2⟩, hr, hc, hs root hr⟩

end Template

end ThemeTemplates
