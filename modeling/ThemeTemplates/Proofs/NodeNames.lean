import ThemeTemplates.Proofs.NormalForm
import ThemeTemplates.Proofs.PairMatches

/-! # What a name may hold

The names of nodes come from bytes of any sort, but not from any bytes. A field has no blanks, and a
pair starts with a key, which has none, and goes on with a line of text. So no name breaks a line,
and none starts with a space (`Label`).

* `Arguments.label_name`, `Arguments.label_argument`: this holds of what any interior is parsed to.
* `Template.labelled_of_compile`: it holds of all nodes of a template whose own name is such.
-/

namespace ThemeTemplates

set_option autoImplicit false

/-- The name stays on its line and does not start with a space. -/
def Label (name : String) : Prop := '\n' ∉ name.toList ∧ name.toList.head? ≠ some ' '

/-! ## Tokens -/

/-- An ASCII character is in a text only where its byte is. -/
theorem Utf8.mem_of_mem_decode {s : Bytes} {b : UInt8} (hb : b.toNat < 0x80)
    (h : asciiChar b ∈ decode s) : b ∈ s := by
  fun_induction decode s with
  | case1 => simp at h
  | case2 a r c rest hc ih =>
    rw [eq_of_char? hc]
    rcases List.mem_cons.1 h with h1 | h1
    · rw [← h1, encodeChar_asciiChar hb]
      exact List.mem_append_left rest (List.mem_singleton_self b)
    · exact List.mem_append_right _ (ih h1)
  | case3 a r hc ih =>
    rcases List.mem_cons.1 h with h1 | h1
    · have h2 := encodeChar_asciiChar hb
      have h3 : encodeChar (Char.ofNat 0xFFFD) = [0xEF, 0xBF, 0xBD] := by decide
      rw [h1, h3] at h2
      simp at h2
    · exact List.mem_of_mem_drop (ih h1)

namespace Arguments

theorem mem_of_mem_unquote {w : Bytes} {b : UInt8} (h : b ∈ unquote w) : b ∈ w := by
  unfold unquote at h
  split at h
  next => exact h
  next q r =>
    split at h
    next => exact List.mem_cons_of_mem q (List.mem_of_mem_dropLast h)
    next => exact h

theorem label_of_not_blank {w : Bytes} (h : ∀ b ∈ w, Bytes.isBlank b = false) :
    Label (Utf8.lossy w) := by
  have h1 {b : UInt8} (hb : Bytes.isBlank b = true) : Utf8.asciiChar b ∉ Utf8.decode w := by
    intro hm
    have h2 := h b (Utf8.mem_of_mem_decode (Bytes.lt_of_isBlank hb) hm)
    rw [hb] at h2
    cases h2
  refine ⟨?_, fun h2 => ?_⟩
  · rw [Utf8.lossy, String.toList_ofList]
    exact h1 (b := 0x0A) rfl
  · rw [Utf8.lossy, String.toList_ofList] at h2
    exact h1 (b := 0x20) rfl (List.mem_of_head? h2)

theorem label_of_mem_words {s w : Bytes} (hw : w ∈ (Bytes.fields s).map unquote) :
    Label (Utf8.lossy w) := by
  obtain ⟨field, hf, rfl⟩ := List.mem_map.1 hw
  exact label_of_not_blank fun b hb =>
    Bytes.isBlank_of_mem_fields hf b (mem_of_mem_unquote hb)

theorem label_of_mem_pairs {s : Bytes} {p : Pair} (hp : p ∈ (division s).pairs) :
    Label (Utf8.lossy p.token) := by
  have hd : Divides s (division s) := divides_iff.2 rfl
  obtain ⟨ks, v, hk, hb, h1, h2⟩ := hd.exists_chars p hp
  have h3 : p.token = Utf8.encode (ks ++ '=' :: v.chars) := by
    rw [hd.token_eq p hp, h1, h2, Utf8.encode_append, Utf8.encode_cons]
    rfl
  obtain ⟨c, ks, rfl⟩ := List.exists_cons_of_ne_nil hk
  rw [Label, Utf8.lossy, String.toList_ofList, h3, Utf8.decode_encode]
  constructor
  · intro h
    rcases List.mem_append.1 h with h | h
    · have h4 := hb '\n' h
      revert h4
      decide
    · rcases List.mem_cons.1 h with h | h
      · revert h
        decide
      · exact (v.plain '\n' h).1 rfl
  · intro h
    obtain rfl : c = ' ' := by simpa using h
    have h4 := hb ' ' List.mem_cons_self
    revert h4
    decide

theorem label_name (content : Bytes) : Label (Utf8.lossy (parse content).name) := by
  rw [parse_eq]
  cases he : (Bytes.fields (division content).rest).map unquote with
  | nil => exact label_of_not_blank (by simp)
  | cons w ws => exact label_of_mem_words (by rw [he]; exact List.mem_cons_self)

theorem label_argument {content token : Bytes}
    (h : token ∈ (parse content).positional ++ (parse content).named) :
    Label (Utf8.lossy token) := by
  rw [parse_eq] at h
  rcases List.mem_append.1 h with h | h
  · exact label_of_mem_words (List.mem_of_mem_tail h)
  · obtain ⟨p, hp, rfl⟩ := List.mem_map.1 h
    exact label_of_mem_pairs hp

end Arguments

/-! ## Trees -/

namespace Node

/-- No name of the tree breaks a line or starts with a space. -/
def Labelled (n : Node) : Prop := ∀ p ∈ preorderAs .child n, Label p.2.name

theorem labelled_iff {n : Node} : n.Labelled ↔
    Label n.name ∧ (∀ a ∈ n.arguments, a.Labelled) ∧ ∀ c ∈ n.children, c.Labelled :=
  forall_node_iff fun n => Label n.name

theorem labelled_ofTag {Context : Type} {functions : Functions Context} {content : Bytes}
    {unescaped : Bool} {position : Nat} {block : Bytes} {children : List Node}
    {elseBranch : Option Node} (hc : ∀ c ∈ children, c.Labelled)
    (he : ∀ e ∈ elseBranch, e.Labelled) :
    (ofTag functions content unescaped position block children elseBranch).Labelled := by
  refine labelled_iff.2 ⟨Arguments.label_name content, fun a ha => ?_, hc⟩
  rw [ofTag_arguments] at ha
  rcases List.mem_append.1 ha with h | h
  · obtain ⟨token, ht, rfl⟩ := List.mem_map.1 h
    exact labelled_iff.2 ⟨Arguments.label_argument ht, by simp [ofToken], by simp [ofToken]⟩
  · exact he a (by simpa using h)

end Node

namespace Template

variable {Context : Type} {functions : Functions Context}

theorem labelled_blockNode {t : Tag} {position : Nat} {inner : Fragment}
    (hn : ∀ n ∈ inner.nodes, n.Labelled) : (blockNode functions t position inner).Labelled := by
  obtain ⟨text, nodes⟩ := inner
  unfold blockNode
  rcases Block.else_cases nodes with h | ⟨main, e, later, rfl, hm, he⟩
  · rw [Block.splitElse_of_forall h]
    exact Node.labelled_ofTag hn (by simp)
  · rw [Block.splitElse_append hm he]
    refine Node.labelled_ofTag (fun c hc => hn c (by simp [hc])) ?_
    rintro _ ⟨⟩
    obtain ⟨hname, hargs, -⟩ := Node.labelled_iff.1 (hn e (by simp))
    refine Node.labelled_iff.2 ⟨hname, hargs, ?_⟩
    intro c' hc'
    obtain ⟨c, hc, rfl⟩ := List.mem_map.1 hc'
    have h1 := Node.labelled_iff.1 (hn c (by simp [hc]))
    exact Node.labelled_iff.2 h1

theorem Compiles.labelled {offset : Nat} {src : Bytes} {f : Fragment}
    (h : Compiles functions offset src f) : ∀ n ∈ f.nodes, n.Labelled := by
  induction h with
  | literal _ => simp
  | comment _ _ _ ih => exact ih
  | expression _ _ _ ih =>
    intro n hn
    rcases List.mem_cons.1 hn with rfl | hn
    · exact Node.labelled_ofTag (by simp) (by simp)
    · exact ih n hn
  | block _ _ _ _ _ _ ihi ihf =>
    intro n hn
    rcases List.mem_cons.1 hn with rfl | hn
    · exact labelled_blockNode ihi
    · exact ihf n hn

theorem labelled_of_compile {src : Bytes} {name : String} {root : Node} (hn : Label name)
    (h : compile functions src name = .ok root) : root.Labelled := by
  obtain ⟨f, hf, rfl⟩ := compile_eq_ok_iff.1 h
  exact Node.labelled_iff.2 ⟨hn, by simp [rootNode], hf.labelled⟩

end Template

end ThemeTemplates
