import ThemeTemplates.Proofs.ClosedText
import ThemeTemplates.Proofs.Recognition

/-! # A long comment between two parts of a template

A long comment that is put behind settled text changes nothing, whatever it holds and whichever
blocks are open there (`Template.compile_remark`).

The delimiters behind the comment move by its length, those before it stay, and none comes from the
comment itself. So every block has the same closer, but for the gap (`Block.closing?_remark`). If the
closer stands behind the comment, then the comment is in the body, otherwise it is behind the block,
and the induction goes on there.
-/

namespace ThemeTemplates

set_option autoImplicit false

/-! ## Moved spans -/

/-- The span farther on by a gap. -/
def Span.shift (gap : Nat) (s : Span) : Span := ⟨s.start + gap, s.stop + gap⟩

/-- The span after a gap was made at position `n`. -/
def Span.widen (n gap : Nat) (s : Span) : Span := if s.start < n then s else s.shift gap

theorem Span.widen_start_lt_iff (n gap : Nat) (s t : Span) :
    (s.widen n gap).start < (t.widen n gap).start ↔ s.start < t.start := by
  unfold widen
  split <;> split <;> simp only [shift] <;> omega

namespace Delimiter

theorem stop_le_of_mem_spansFrom {f : Bytes → Option Nat} {s : Bytes} {d : Span}
    (hle : ∀ u k, f u = some k → k ≤ u.length) : ∀ {offset skip : Nat},
      d ∈ spansFrom f offset skip s → d.stop ≤ offset + s.length := by
  induction s with
  | nil =>
    intro offset skip h
    simp [spansFrom] at h
  | cons b s ih =>
    intro offset skip h
    rw [List.length_cons]
    cases skip with
    | succ skip =>
      rw [spansFrom] at h
      have h1 := ih h
      omega
    | zero =>
      rw [spansFrom] at h
      split at h
      next =>
        have h1 := ih h
        omega
      next n hn =>
        rcases List.mem_cons.1 h with rfl | h
        · have h1 := hle _ _ hn
          rw [List.length_cons] at h1
          simp only
          omega
        · have h1 := ih h
          omega

theorem spansFrom_shift {f : Bytes → Option Nat} (gap : Nat) (s : Bytes) : ∀ offset skip : Nat,
    spansFrom f (offset + gap) skip s = (spansFrom f offset skip s).map (Span.shift gap) := by
  induction s with
  | nil =>
    intro offset skip
    rfl
  | cons b s ih =>
    intro offset skip
    have e : offset + gap + 1 = offset + 1 + gap := by omega
    cases skip with
    | succ skip => rw [spansFrom, spansFrom, e, ih]
    | zero =>
      rw [spansFrom, spansFrom]
      cases f (b :: s) with
      | none => simp only [e, ih]
      | some n =>
        have e1 : offset + gap + n = offset + n + gap := by omega
        simp only [e, e1, ih, List.map_cons]
        rfl

end Delimiter

theorem Tag.commentSpansFrom_shift (gap offset : Nat) (src : Bytes) :
    commentSpansFrom (offset + gap) src = (commentSpansFrom offset src).map (Span.shift gap) := by
  fun_induction commentSpansFrom offset src with
  | case1 offset src hc =>
    rw [commentSpansFrom_eq, hc]
    rfl
  | case2 offset src before inner hc hm hl =>
    rw [commentSpansFrom_eq, hc]
    simp only [hm, hl, if_true, List.map_nil]
  | case3 offset src before inner hc start hm body after hl stop ih =>
    have e : offset + gap + before.length = start + gap := by omega
    have e1 : start + gap + openMark.length + body.length + commentEnd.length = stop + gap := by
      omega
    rw [commentSpansFrom_eq, hc]
    simp only [hm, hl, if_true, e, e1, ih, List.map_cons]
    rfl
  | case4 offset src before inner hc start hm ih =>
    have e : offset + gap + before.length + openMark.length = start + openMark.length + gap := by
      omega
    rw [commentSpansFrom_eq, hc]
    simp only [hm, e, ih]
    rfl

namespace Block

open Delimiter

theorem outside_shift (gap : Nat) (cs ss : List Span) :
    outside (cs.map (Span.shift gap)) (ss.map (Span.shift gap)) =
      (outside cs ss).map (Span.shift gap) := by
  have h : ∀ c s : Span, (c.shift gap).contains (s.shift gap).start = c.contains s.start := by
    intro c s
    simp [Span.contains, Span.shift]
  simp only [outside, List.filter_map, Function.comp_def, List.any_map, h]

theorem live_shift (side : Side) (name : Bytes) (gap offset : Nat) (s : Bytes) :
    live side name (offset + gap) s = (live side name offset s).map (Span.shift gap) := by
  rw [live, Tag.commentSpansFrom_shift, spansFrom_shift, outside_shift]
  rfl

theorem le_of_mem_live {side : Side} {name s : Bytes} {offset : Nat} {d : Span}
    (h : d ∈ live side name offset s) : offset ≤ d.start ∧ d.start < offset + s.length := by
  have h1 := mem_spansFrom (List.mem_filter.1 h).1
  omega

/-- Of the delimiters of a text in two parts, those of the second part move with it. -/
theorem map_widen_live {side : Side} {name p s : Bytes} (gap : Nat) :
    (live side name 0 p ++ live side name p.length s).map (Span.widen p.length gap) =
      live side name 0 p ++ live side name (p.length + gap) s := by
  rw [List.map_append, live_shift]
  congr 1
  · conv_rhs => rw [← List.map_id (live side name 0 p)]
    apply List.map_congr_left
    intro d hd
    have h := le_of_mem_live hd
    exact if_pos (by omega)
  · apply List.map_congr_left
    intro d hd
    have h := le_of_mem_live hd
    exact if_neg (by omega)

/-! ## The closer of a block -/

theorem settle_map {g : Span → Span} (hg : ∀ s t, (g s).start < (g t).start ↔ s.start < t.start)
    (openers closers : List Span) :
    settle (openers.map g) (closers.map g) = (settle openers closers).map g := by
  fun_induction settle openers closers with
  | case1 closers => exact List.head?_map
  | case2 o openers => rfl
  | case3 o openers c closers h ih =>
    rw [List.map_cons, List.map_cons, settle, if_pos ((hg o c).2 h), ih]
  | case4 o openers c closers h =>
    rw [List.map_cons, List.map_cons, settle, if_neg fun h1 => h ((hg o c).1 h1)]
    rfl

theorem live_remark_of_head {side : Side} {name body s : Bytes} (h : Tag.Remark body)
    (hn : ¬ Tag.closeMark <:+: name) (hs : s.head? ≠ some 0x7D) (offset : Nat) :
    live side name offset (Tag.remark body ++ s) =
      live side name (offset + (Tag.remark body).length) s := by
  apply live_remark_of_le h
  intro u hu hne k hk
  rw [length?_append hn ((Tag.closed_remark body).suffix hu) hne hs] at hk
  exact .inl (length?_le_length hk)

end Block

/-! ## Names -/

namespace Utf8

theorem head?_encode_decode {s : Bytes} (h : (encode (decode s)).head? = some 0x7D) :
    s.head? = some 0x7D := by
  cases s with
  | nil => rw [decode] at h; cases h
  | cons b r =>
    cases hc : char? (b :: r) with
    | some p =>
      obtain ⟨c, rest⟩ := p
      rw [decode_of_char? hc, encode_cons, List.head?_append] at h
      rw [eq_of_char? hc, List.head?_append]
      cases he : encodeChar c with
      | nil => exact absurd he (encodeChar_ne_nil c)
      | cons d t =>
        rw [he] at h
        exact h
    | none =>
      rw [decode] at h
      split at h
      next h1 => rw [hc] at h1; cases h1
      next =>
        have e : encodeChar (Char.ofNat 0xFFFD) = [0xEF, 0xBF, 0xBD] := by decide
        rw [encode_cons, e] at h
        cases h

end Utf8

namespace Tag

theorem closeMark_infix_append {x y : Bytes} (hx : 0x7D ∉ x) (h : closeMark <:+: x ++ y) :
    closeMark <:+: y := by
  induction x with
  | nil => exact h
  | cons b x ih =>
    obtain ⟨h1, h2⟩ := List.ne_and_not_mem_of_not_mem_cons hx
    rcases List.infix_cons_iff.1 h with h3 | h3
    · exact absurd (List.cons_prefix_cons.1 h3).1 h1
    · exact ih h2 h3

/-- Reading a text as characters brings no closing braces together. -/
theorem closeMark_infix_of_decode {s : Bytes} (h : closeMark <:+: Utf8.encode (Utf8.decode s)) :
    closeMark <:+: s := by
  fun_induction Utf8.decode s with
  | case1 => exact absurd h (by decide)
  | case2 a r c rest hc ih =>
    have e := Utf8.eq_of_char? hc
    have hrest : rest <:+ a :: r := ⟨_, e.symm⟩
    rw [Utf8.encode_cons] at h
    by_cases hb : 0x7D ∈ Utf8.encodeChar c
    · obtain ⟨e1, -⟩ := Utf8.encodeChar_of_mem hb (by decide)
      rw [e1, List.singleton_append] at h e
      rcases List.infix_cons_iff.1 h with h1 | h1
      · obtain ⟨t, h2⟩ := (List.cons_prefix_cons.1 h1).2
        have h3 : rest.head? = some 0x7D := Utf8.head?_encode_decode (by rw [← h2]; rfl)
        obtain ⟨u, rfl⟩ := List.head?_eq_some_iff.1 h3
        rw [e]
        exact (List.prefix_append closeMark u).isInfix
      · exact (ih h1).trans hrest.isInfix
    · exact (ih (closeMark_infix_append hb h)).trans hrest.isInfix
  | case3 a r hc ih =>
    rw [Utf8.encode_cons] at h
    have h1 : 0x7D ∉ Utf8.encodeChar (Char.ofNat 0xFFFD) := by decide
    exact (ih (closeMark_infix_append h1 h)).trans (List.drop_suffix _ _).isInfix

/-- The name of an opener that was scanned holds no closing braces. -/
theorem not_closeMark_of_blockName? {src name : Bytes} {t : Tag} (h : scan src = some t)
    (hk : t.kind = .opener) (hn : Template.blockName? t.content = some name) :
    ¬ closeMark <:+: name := by
  rcases scan_cases h with ⟨_, -, -, hk'⟩ | ⟨interior, z, hi, -, -, ht⟩
  · rw [hk] at hk'
    cases hk'
  · rw [Piece.ofInterior_reading] at ht
    have e1 : (reading interior).kind = .opener := by rw [← hk, ht]
    have e2 : (reading interior).content = t.content := by rw [ht]
    obtain ⟨o, lead, c, trail, -, -, -, e, hc, -⟩ := opener_shape e1
    have h1 : name <:+: c := by
      rw [Template.blockName?, ← e2, hc, Bytes.head?_fields] at hn
      split at hn
      · cases hn
      · cases hn
        exact (List.takeWhile_prefix _).isInfix.trans (List.dropWhile_suffix _).isInfix
    have h2 : c <:+: interior := ⟨o ++ (lead ++ [0x23]), trail, by rw [e]; simp⟩
    intro h3
    exact hi.no_close (h3.trans (h1.trans h2))

end Tag

/-- A comment moves the closer of a block that is open before it, if that stands behind it. -/
theorem Block.closing?_remark {name p c s : Bytes} (hn : ¬ Tag.closeMark <:+: name)
    (hp : Tag.Settled p) (hc : Tag.Remark c) (hs : s.head? ≠ some 0x7D) :
    closing? name (p ++ (Tag.remark c ++ s)) =
      (closing? name (p ++ s)).map (Span.widen p.length (Tag.remark c).length) := by
  have hn' : ¬ Tag.closeMark <:+: Utf8.encode (Utf8.decode name) := fun h =>
    hn (Tag.closeMark_infix_of_decode h)
  have h1 : ∀ side, delimiters side name (p ++ (Tag.remark c ++ s)) =
      (delimiters side name (p ++ s)).map (Span.widen p.length (Tag.remark c).length) := by
    intro side
    have e : ∀ text, delimiters side name text =
        live side (Utf8.encode (Utf8.decode name)) 0 text := fun _ => rfl
    have hr : (Tag.remark c ++ s).head? ≠ some 0x7D := by simp [Tag.remark, Tag.openMark]
    rw [e, e, live_append hn' hp hr, live_append hn' hp hs, live_remark_of_head hc hn' hs,
      Nat.zero_add, map_widen_live]
  rw [closing?, h1, h1, settle_map (Span.widen_start_lt_iff _ _)]
  rfl

/-- A closer that starts in settled text ends in it. -/
theorem Block.stop_le_of_closing? {name p s : Bytes} {d : Span} (hn : ¬ Tag.closeMark <:+: name)
    (hp : Tag.Settled p) (hs : s.head? ≠ some 0x7D) (h : closing? name (p ++ s) = some d)
    (hd : d.start < p.length) : d.stop ≤ p.length := by
  have hn' : ¬ Tag.closeMark <:+: Utf8.encode (Utf8.decode name) := fun h =>
    hn (Tag.closeMark_infix_of_decode h)
  have h1 : d ∈ Delimiter.spansFrom
      (Delimiter.length? .closer (Utf8.encode (Utf8.decode name))) 0 0 (p ++ s) :=
    (List.mem_filter.1 (mem_of_closing? h)).1
  rw [Delimiter.spansFrom_append_closed hn' hp.toClosed hs, List.mem_append] at h1
  rcases h1 with h1 | h1
  · have h2 := Delimiter.stop_le_of_mem_spansFrom (fun _ _ h => Delimiter.length?_le_length h) h1
    omega
  · have h2 := Delimiter.mem_spansFrom h1
    omega

namespace Template

theorem toOption_map {ε α β : Type} (x : Except ε α) (f : α → β) :
    (x.map f).toOption = x.toOption.map f := by
  cases x <;> rfl

theorem toOption_eq_some_iff {ε α : Type} {x : Except ε α} {a : α} :
    x.toOption = some a ↔ x = .ok a := by
  cases x with
  | error e => exact ⟨nofun, nofun⟩
  | ok b => simp [Except.toOption]

theorem toOption_bind {ε α β : Type} (x : Except ε α) (f : α → Except ε β) :
    (x.bind f).toOption = x.toOption.bind fun a => (f a).toOption := by
  cases x <;> rfl

variable {Context : Type} (functions : Functions Context)

/-- The induction is on the length of the text around the comment. It goes on in the body of a block
and behind the block, one of which has the comment. -/
theorem fragment_remark {c : Bytes} (hc : Tag.Remark c) (n : Nat) : ∀ {p s : Bytes} (offset : Nat),
    p.length + s.length < n → Tag.Settled p → s.head? ≠ some 0x7D →
      (fragment functions offset (p ++ (Tag.remark c ++ s))).toOption =
        (fragment functions offset (p ++ s)).toOption := by
  induction n with
  | zero =>
    intro p s offset h
    exact absurd h (Nat.not_lt_zero _)
  | succ n ih =>
    intro p s offset hlen hp hs
    cases hcut : Bytes.cut? Tag.openMark p with
    | none =>
      have h1 : Tag.Literal p := ⟨Bytes.cut?_eq_none_iff.1 hcut, hp.no_last⟩
      have h2 : ∀ offset, fragment functions offset (Tag.remark c ++ s) =
        fragment functions offset s := fun _ => Piece.fragment_remark hc
      rw [fragment_append functions h1, fragment_append functions h1, h2]
    | some b =>
      obtain ⟨before, inner⟩ := b
      obtain ⟨t, ht, hset, h1⟩ := hp.scan_append hcut
      have h2 := Tag.length_after_of_scan ht
      have h3 := fun position => ih position (by omega : t.after.length + s.length < n) hset hs
      cases hk : t.kind with
      | comment =>
        rw [fragment_of_comment (h1 _) hk, fragment_of_comment (h1 s) hk, toOption_map,
          toOption_map]
        exact congrArg _ (h3 _)
      | closer =>
        rw [fragment_of_closer (h1 _) hk, fragment_of_closer (h1 s) hk]
        rfl
      | expression =>
        rw [fragment_of_expression (h1 _) hk, fragment_of_expression (h1 s) hk, toOption_map,
          toOption_map]
        exact congrArg _ (h3 _)
      | opener =>
        cases hn : blockName? t.content with
        | none =>
          rw [fragment_of_unnamed (h1 _) hk hn, fragment_of_unnamed (h1 s) hk hn]
        | some name =>
          have hname := Tag.not_closeMark_of_blockName? ht hk hn
          have hcl := Block.closing?_remark hname hset hc hs
          cases hd : Block.closing? name (t.after ++ s) with
          | none =>
            rw [hd] at hcl
            rw [fragment_of_unclosed (h1 _) hk hn hcl, fragment_of_unclosed (h1 s) hk hn hd]
            rfl
          | some d =>
            have hle := Block.bounds_of_closing? hd
            rw [hd, Option.map_some] at hcl
            rw [fragment_of_block (h1 _) hk hn hcl, fragment_of_block (h1 s) hk hn hd,
              toOption_bind, toOption_bind]
            simp only [toOption_map]
            by_cases hlt : d.start < t.after.length
            · -- the block ends before the comment
              have hstop := Block.stop_le_of_closing? hname hset hs hd hlt
              have h4 : (t.after.drop d.stop).length + s.length < n := by
                rw [List.length_drop]
                omega
              rw [Span.widen, if_pos hlt, List.take_append_of_le_length (by omega),
                List.take_append_of_le_length (by omega), List.drop_append_of_le_length hstop,
                List.drop_append_of_le_length hstop,
                ih _ h4 (hset.suffix (List.drop_suffix _ _)) hs]
              rfl
            · -- the comment is in the body
              obtain ⟨k, hk1⟩ := Nat.exists_eq_add_of_le (Nat.le_of_not_lt hlt)
              obtain ⟨m, hm⟩ : ∃ m, d.stop = t.after.length + m :=
                Nat.exists_eq_add_of_le (by omega)
              have hgap : ∀ j, t.after.length + j + (Tag.remark c).length =
                  t.after.length + ((Tag.remark c).length + j) := by
                intro j
                omega
              have h4 : t.after.length + (s.take k).length < n := by
                rw [List.length_take]
                omega
              have h5 : (s.take k).head? ≠ some 0x7D := by
                rw [List.head?_take]
                split
                · exact nofun
                · exact hs
              rw [Span.widen, if_neg hlt, Span.shift, hk1, hm, hgap, hgap]
              simp only [List.take_length_add_append, List.drop_length_add_append]
              rw [ih _ h4 hset h5]
              rfl

/-- A long comment between settled text and text that starts with no closing brace leaves no trace:
the template compiles just when it does without the comment, to the same tree. -/
theorem compile_remark {p c s : Bytes} (name : String) (hp : Tag.Settled p)
    (hc : ¬ Tag.commentEnd <:+: c) (hs : s.head? ≠ some 0x7D) (root : Node) :
    compile functions (p ++ Tag.remark c ++ s) name = .ok root ↔
      compile functions (p ++ s) name = .ok root := by
  have h := fragment_remark functions (Tag.remark_of_not_infix hc) _ 0 (Nat.lt_succ_self _) hp hs
  rw [← toOption_eq_some_iff, ← toOption_eq_some_iff, compile_eq, compile_eq, toOption_map,
    toOption_map, List.append_assoc, h]

/-- The comment holds a closer of each open block, an else tag, an opener and a quote. -/
theorem compile_remark_open :
    let p := written "#if a" ++ written "! note" ++ [0x78] ++ written "#each b"
    let c := written "/each" ++ written "else" ++ written "#if" ++ written "/if" ++ [0x22]
    let s := [0x79] ++ written "/each" ++ written "else" ++ written "z" ++ written "/if"
    Tag.Settled p ∧ ¬ Tag.commentEnd <:+: c ∧ s.head? ≠ some 0x7D ∧
      ∃ root, root.count = 7 ∧ compile ([] : Functions Unit) (p ++ Tag.remark c ++ s) "t" = .ok root ∧
        compile ([] : Functions Unit) (p ++ s) "t" = .ok root := by
  intro p c s
  have hp : Tag.Settled p :=
    ⟨⟨by decide +kernel, Tag.forall_behind_iff.2 (by decide +kernel)⟩, by decide +kernel,
      Tag.forall_behind_iff.2 (by decide +kernel)⟩
  have hc : ¬ Tag.commentEnd <:+: c := by decide +kernel
  have hs : s.head? ≠ some 0x7D := by decide +kernel
  have h1 : (compile ([] : Functions Unit) (p ++ s) "t").toOption.map Node.count = some 7 := by
    decide +kernel
  obtain ⟨root, hr, hcount⟩ := exists_of_toOption h1
  exact ⟨hp, hc, hs, root, hcount, (compile_remark _ "t" hp hc hs root).2 hr, hr⟩

end Template

end ThemeTemplates
