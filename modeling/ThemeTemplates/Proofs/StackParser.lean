import ThemeTemplates.Proofs.ElseBranch
import ThemeTemplates.Proofs.Tokens

/-! # A parser with a stack

`StackParser.parse` reads a sequence of tokens from the left, once. It keeps the blocks that are
open, the innermost first, and what it has read of the one it stands in.

* `StackParser.step` is what one token does, `StackParser.run` what a sequence does.
* `StackParser.Holds` says that a scope has read certain text and nodes. `run_balanced` carries it
  over a balanced sequence, which leaves the open blocks alone.
* `isSome_finish`: the parser succeeds on nested sequences and on no other.
* `Token.compile_source`: compiling the text of a sequence of tokens gives the tree that the parser
  builds, and fails where the parser does.
-/

namespace ThemeTemplates

set_option autoImplicit false

open Template (Fragment)

variable {Context : Type}

/-! ## Nodes -/

/-- The leaf of an argument. -/
def Argument.leaf (functions : Functions Context) (unescaped : Bool) (a : Argument) : Node :=
  { name := String.ofList a.label
    function := functions.resolve (String.ofList a.label)
    unescaped
    position := 0
    block := []
    arguments := []
    children := [] }

/-- The node of a tag with this name and these arguments. -/
def Name.node (functions : Functions Context) (unescaped : Bool) (n : Name) (args : List Argument)
    (position : Nat) (block : Bytes) (children : List Node) (elseBranch : Option Node) : Node :=
  { name := n.string
    function := functions.resolve n.string
    unescaped
    position
    block
    arguments := (Argument.listed args).map (Argument.leaf functions unescaped) ++ elseBranch.toList
    children }

namespace StackParser

/-! ## The parser -/

/-- What has been read of a block, or of the template around all blocks: the branch that is being
read, and before it the main branch, if an else tag has ended that, with the node of the tag. -/
structure Scope where
  main : Option (Fragment × Node)
  branch : Fragment

/-- A block that is open, with the scope that it stands in. -/
structure Frame where
  id : BlockName
  args : List Argument
  outer : Scope

structure State where
  frames : List Frame
  scope : Scope

namespace Scope

def empty : Scope := ⟨none, ⟨[], []⟩⟩

/-- The place that a tag has: the number of literal bytes before it in its branch. -/
def position (b : Scope) : Nat := b.branch.text.length

def write (w : Bytes) (b : Scope) : Scope :=
  { b with branch := ⟨b.branch.text ++ w, b.branch.nodes⟩ }

def add (n : Node) (b : Scope) : Scope :=
  { b with branch := ⟨b.branch.text, b.branch.nodes ++ [n]⟩ }

/-- Ends the main branch with an else tag. -/
def split (e : Node) (b : Scope) : Scope := ⟨some (b.branch, e), ⟨[], []⟩⟩

end Scope

/-- The node of a block of which all has been read. -/
def Frame.node (functions : Functions Context) (f : Frame) (inner : Scope) : Node :=
  match inner.main with
  | none =>
    f.id.node functions false f.args f.outer.position inner.branch.text inner.branch.nodes none
  | some (main, e) =>
    f.id.node functions false f.args f.outer.position main.text main.nodes
      (some { e with block := inner.branch.text, children := inner.branch.nodes })

/-- One token. The first else tag of a block ends its main branch; outside all blocks it is an
expression as any other. -/
def step (functions : Functions Context) (s : State) : Token → Option State
  | .text w _ _ => some { s with scope := s.scope.write w }
  | .remark _ _ _ => some s
  | .comment _ _ => some s
  | .expression triple name args =>
    let n := name.node functions triple args s.scope.position [] [] none
    let ends := !s.frames.isEmpty && s.scope.main.isNone && name.string == Node.elseName
    some { s with scope := if ends then s.scope.split n else s.scope.add n }
  | .opener id args => some ⟨⟨id, args, s.scope⟩ :: s.frames, .empty⟩
  | .closer id =>
    match s.frames with
    | [] => none
    | f :: frames =>
      if f.id.bytes == id.bytes then some ⟨frames, f.outer.add (f.node functions s.scope)⟩ else none

def run (functions : Functions Context) (s : State) : List Token → Option State
  | [] => some s
  | t :: ts => (step functions s t).bind fun s' => run functions s' ts

/-- The text and the nodes of a template, if no block is open in the end. -/
def finish (s : State) : Option Fragment :=
  match s.frames with
  | [] => some s.scope.branch
  | _ :: _ => none

def State.init : State := ⟨[], .empty⟩

def parse (functions : Functions Context) (name : String) (ts : List Token) : Option Node :=
  ((run functions .init ts).bind finish).map fun f =>
    { name, function := functions.resolve name, unescaped := false, position := 0, block := f.text,
      arguments := [], children := f.nodes }

/-! ## Which sequences are parsed -/

section
variable (functions : Functions Context)

theorem run_append (s : State) (ts us : List Token) :
    run functions s (ts ++ us) = (run functions s ts).bind fun s' => run functions s' us := by
  induction ts generalizing s with
  | nil => rfl
  | cons t ts ih =>
    rw [List.cons_append, run, run, Option.bind_assoc]
    congr 1
    funext s'
    exact ih s'

/-- The names of the open blocks. -/
def State.names (s : State) : List Bytes := s.frames.map fun f => f.id.bytes

theorem step_of_none {s : State} {t : Token} (h : t.bracket? = none) :
    ∃ scope, step functions s t = some ⟨s.frames, scope⟩ := by
  cases t with
  | text w => exact ⟨_, rfl⟩
  | remark => exact ⟨_, rfl⟩
  | comment => exact ⟨_, rfl⟩
  | expression => exact ⟨_, rfl⟩
  | opener => cases h
  | closer => cases h

theorem isSome_finish (ts : List Token) : ∀ s : State,
    ((run functions s ts).bind finish).isSome =
      Bracket.closes s.names (ts.filterMap Token.bracket?) := by
  induction ts with
  | nil =>
    rintro ⟨frames, scope⟩
    cases frames <;> rfl
  | cons t ts ih =>
    intro s
    rw [run, Option.bind_assoc]
    cases hb : t.bracket? with
    | none =>
      obtain ⟨scope, h⟩ := step_of_none functions (s := s) hb
      rw [h, List.filterMap_cons_none hb]
      exact ih ⟨s.frames, scope⟩
    | some b =>
      rw [List.filterMap_cons_some hb]
      cases t with
      | opener id args =>
        cases hb
        have h1 : (!id.bytes.isEmpty) = true := by simp [id.bytes_ne_nil]
        rw [Bracket.closes, h1, Bool.true_and]
        exact ih ⟨⟨id, args, s.scope⟩ :: s.frames, .empty⟩
      | closer id =>
        cases hb
        obtain ⟨frames, scope⟩ := s
        cases frames with
        | nil => rfl
        | cons f frames =>
          have e : State.names ⟨f :: frames, scope⟩ =
            f.id.bytes :: State.names ⟨frames, scope⟩ := rfl
          rw [step, e, Bracket.closes]
          simp only
          cases f.id.bytes == id.bytes with
          | false => rfl
          | true => exact ih ⟨frames, f.outer.add (f.node functions scope)⟩
      | text => cases hb
      | remark => cases hb
      | comment => cases hb
      | expression => cases hb

end

/-! ## The nodes that tags compile to -/

section
variable (functions : Functions Context)

theorem ofToken_label (unescaped : Bool) (a : Argument) :
    Node.ofToken functions unescaped (Utf8.encode a.label) = a.leaf functions unescaped := by
  rw [Node.ofToken, Utf8.lossy, Utf8.decode_encode]
  rfl

theorem ofTag_content (n : Name) (args : List Argument) (unescaped : Bool) (position : Nat)
    (block : Bytes) (children : List Node) (elseBranch : Option Node) :
    Node.ofTag functions (content n args) unescaped position block children elseBranch =
      n.node functions unescaped args position block children elseBranch := by
  have h1 : Utf8.lossy n.bytes = n.string := by
    rw [Utf8.lossy, Name.bytes, Utf8.decode_encode]
    rfl
  have h2 : ∀ as : List Argument, (as.map fun a => Utf8.encode a.label).map
      (Node.ofToken functions unescaped) = as.map (Argument.leaf functions unescaped) := by
    intro as
    rw [List.map_map]
    exact List.map_congr_left fun a _ => ofToken_label functions unescaped a
  rw [Node.ofTag, Arguments.parse_content]
  simp only [h1]
  rw [← List.map_append, h2]
  rfl

/-- The node that the compiler makes of a block with this opener and this body. -/
def compiledBlock (id : BlockName) (args : List Argument) (position : Nat) (g : Fragment) : Node :=
  Template.blockNode functions (Tag.reading (0x23 :: content id.toName args)) position g

/-- A body without an else tag is all of its block. -/
theorem compiledBlock_of_forall (id : BlockName) (args : List Argument) (position : Nat)
    {g : Fragment} (h : ∀ c ∈ g.nodes, Block.isElse c = false) :
    compiledBlock functions id args position g =
      id.node functions false args position g.text g.nodes none := by
  rw [compiledBlock, Template.blockNode, reading_opener, Block.splitElse_of_forall h]
  exact ofTag_content functions id.toName args false position g.text g.nodes none

theorem isElse_compiledBlock (id : BlockName) (args : List Argument) (position : Nat)
    (g : Fragment) : Block.isElse (compiledBlock functions id args position g) = false := by
  rw [compiledBlock, Template.blockNode, reading_opener]
  simp only [ofTag_content]
  exact beq_false_of_ne id.not_else

theorem builds_block {id id' : BlockName} (h : id'.bytes = id.bytes) {args : List Argument}
    {inner rest : List Token} {offset : Nat} {g f : Fragment}
    (hi : Piece.Builds functions 0 (inner.map Token.piece) g)
    (hr : Piece.Builds functions offset (rest.map Token.piece) f) :
    Piece.Builds functions offset
      ((Token.opener id args :: (inner ++ .closer id' :: rest)).map Token.piece)
      (f.push [] (some (compiledBlock functions id args offset g))) := by
  have h2 : (Token.closer id').piece.bracket? = some (.closing id.bytes) := by
    rw [Token.bracket?_piece, ← h]
    rfl
  rw [List.map_cons, List.map_append, List.map_cons]
  exact .block (by rw [reading_opener]) (blockName?_opener id.toName args) h2 hi hr

end

/-! ## What a scope has read -/

/-- A node at another place. -/
def placed (n : Node) (position : Nat) : Node := { n with position }

@[simp] theorem rebase_placed (start position : Nat) (n : Node) :
    Block.rebase start (placed n position) = placed n (position - start) := rfl

@[simp] theorem isElse_placed (position : Nat) (n : Node) :
    Block.isElse (placed n position) = Block.isElse n := rfl

/-- A scope has read the text and the nodes of a fragment. If else tags split it, the first one of
the fragment has. -/
inductive Holds : Bool → Scope → Fragment → Prop
  | whole {splits : Bool} {g : Fragment}
      (h : splits = true → ∀ c ∈ g.nodes, Block.isElse c = false) : Holds splits ⟨none, g⟩ g
  | split {main : Fragment} {e : Node} {text : Bytes} {later : List Node}
      (hm : ∀ c ∈ main.nodes, Block.isElse c = false) (he : Block.isElse e = true)
      (hp : e.position = main.text.length) :
      Holds true ⟨some (main, e), ⟨text, later.map (Block.rebase e.position)⟩⟩
        ⟨main.text ++ text, main.nodes ++ e :: later⟩

section
variable {splits : Bool} {b : Scope} {g : Fragment}

theorem holds_empty (splits : Bool) : Holds splits .empty ⟨[], []⟩ := .whole (by simp)

theorem Holds.write (h : Holds splits b g) (w : Bytes) :
    Holds splits (b.write w) ⟨g.text ++ w, g.nodes⟩ := by
  cases h with
  | whole h => exact .whole h
  | split hm he hp =>
    rw [List.append_assoc]
    exact .split hm he hp

/-- A node that splits nothing. -/
theorem Holds.add (h : Holds splits b g) {n : Node}
    (hn : splits = true → b.main = none → Block.isElse n = false) :
    Holds splits (b.add (placed n b.position)) ⟨g.text, g.nodes ++ [placed n g.text.length]⟩ := by
  cases h with
  | whole h =>
    refine .whole fun hs c hc => ?_
    rcases List.mem_append.1 hc with hc | hc
    · exact h hs c hc
    · rw [List.mem_singleton.1 hc, isElse_placed]
      exact hn hs rfl
  | @split main e text later hm he hp =>
    have h1 : Holds true
        ⟨some (main, e), ⟨text, (later ++ [placed n (main.text ++ text).length]).map
          (Block.rebase e.position)⟩⟩
        ⟨main.text ++ text, main.nodes ++ e :: (later ++ [placed n (main.text ++ text).length])⟩ :=
      .split hm he hp
    have e1 : (main.text ++ text).length - e.position = text.length := by
      rw [hp, List.length_append, Nat.add_sub_cancel_left]
    rw [List.map_append, List.map_singleton, rebase_placed, e1] at h1
    rw [List.append_assoc]
    exact h1

theorem Holds.branch_eq (h : Holds splits b g) (hb : b.main = none) :
    b.branch = g ∧ (splits = true → ∀ c ∈ g.nodes, Block.isElse c = false) := by
  cases h with
  | whole h => exact ⟨rfl, h⟩
  | split => cases hb

/-- The first else tag. -/
theorem Holds.split_scope (h : Holds true b g) (hb : b.main = none) {n : Node}
    (hn : Block.isElse n = true) :
    Holds true (b.split (placed n b.position)) ⟨g.text, g.nodes ++ [placed n g.text.length]⟩ := by
  obtain ⟨rfl, h1⟩ := h.branch_eq hb
  have h2 : Holds true ⟨some (b.branch, placed n b.position), ⟨[], [].map (Block.rebase _)⟩⟩
      ⟨b.branch.text ++ [], b.branch.nodes ++ [placed n b.position]⟩ := .split (h1 rfl) hn rfl
  rwa [List.append_nil] at h2

/-- A node that ends the main branch where an else tag does. -/
theorem Holds.expression (h : Holds splits b g) (n : Node) :
    Holds splits (if splits && b.main.isNone && Block.isElse n then b.split (placed n b.position)
      else b.add (placed n b.position)) ⟨g.text, g.nodes ++ [placed n g.text.length]⟩ := by
  split
  next hc =>
    rw [Bool.and_eq_true, Bool.and_eq_true, Option.isNone_iff_eq_none] at hc
    obtain ⟨⟨rfl, hb⟩, hn⟩ := hc
    exact h.split_scope hb hn
  next hc =>
    refine h.add fun hs hb => ?_
    simpa [hs, hb] using hc

/-- A block that has been read is the one that its body compiles to. -/
theorem Holds.node (functions : Functions Context) {f : Frame} {inner : Scope}
    (h : Holds true inner g) : f.node functions inner =
      compiledBlock functions f.id f.args f.outer.position g := by
  cases h with
  | whole h =>
    rw [compiledBlock_of_forall functions f.id f.args _ (h rfl)]
    rfl
  | @split main e text later hm he hp =>
    rw [compiledBlock, Template.blockNode, reading_opener]
    simp only [ofTag_content]
    have e1 : (main.text ++ text).take e.position = main.text := by rw [hp, List.take_left]
    have e2 : (main.text ++ text).drop e.position = text := by rw [hp, List.drop_left]
    rw [Block.splitElse_append hm he, e1, e2]
    rfl

end

/-! ## One pass over a balanced sequence -/

theorem exists_opener {t : Token} {n : Bytes} (h : t.bracket? = some (.opening n)) :
    ∃ id args, t = .opener id args ∧ id.bytes = n := by
  cases t with
  | opener id args => cases h; exact ⟨id, args, rfl, rfl⟩
  | _ => cases h

theorem exists_closer {t : Token} {n : Bytes} (h : t.bracket? = some (.closing n)) :
    ∃ id, t = .closer id ∧ id.bytes = n := by
  cases t with
  | closer id => cases h; exact ⟨id, rfl, rfl⟩
  | _ => cases h

section
variable (functions : Functions Context)

/-- A token that is no bracket adds to the scope what its piece adds to the fragment. -/
theorem exists_step_leaf {t : Token} (hb : t.bracket? = none) {frames : List Frame} {b : Scope}
    {g : Fragment} (h : Holds (!frames.isEmpty) b g) :
    ∃ (b' : Scope) (d : Fragment), step functions ⟨frames, b⟩ t = some ⟨frames, b'⟩ ∧
      Holds (!frames.isEmpty) b' ⟨g.text ++ d.text, g.nodes ++ d.nodes⟩ ∧
      ∀ {ts : List Token} {f : Fragment},
        Piece.Builds functions (g.text ++ d.text).length (ts.map Token.piece) f →
          Piece.Builds functions g.text.length ((t :: ts).map Token.piece)
            ⟨d.text ++ f.text, d.nodes ++ f.nodes⟩ := by
  cases t with
  | opener => cases hb
  | closer => cases hb
  | text w =>
    refine ⟨b.write w, ⟨w, []⟩, rfl, ?_, fun hf => ?_⟩
    · rw [List.append_nil]
      exact h.write w
    · rw [List.length_append] at hf
      exact .text hf
  | remark c hc hn =>
    refine ⟨b, ⟨[], []⟩, rfl, ?_, fun hf => ?_⟩
    · rwa [List.append_nil, List.append_nil]
    · rw [List.append_nil] at hf
      exact .comment (reading_remark hc.1 hn).1 hf
  | comment c =>
    refine ⟨b, ⟨[], []⟩, rfl, ?_, fun hf => ?_⟩
    · rwa [List.append_nil, List.append_nil]
    · rw [List.append_nil] at hf
      exact .remark hf
  | expression triple name args =>
    let n := name.node functions triple args 0 [] [] none
    refine ⟨_, ⟨[], [placed n g.text.length]⟩, rfl, ?_, fun hf => ?_⟩
    · rw [List.append_nil]
      exact h.expression n
    · rw [List.append_nil] at hf
      cases triple
      · have h1 : Piece.Builds functions g.text.length (.tag (content name.toName args) [] :: _) _ :=
          .expression (by rw [name.reading args]) hf
        rw [Template.expressionNode, name.reading, ofTag_content] at h1
        exact h1
      · have h1 : Piece.Builds functions g.text.length
            (.tag (0x7B :: content name.toName args) [0x7D] :: _) _ :=
          .expression (by rw [name.reading_triple args]) hf
        rw [Template.expressionNode, name.reading_triple, ofTag_content] at h1
        exact h1

theorem run_block {id id' : BlockName} (h : id.bytes = id'.bytes) {args : List Argument}
    {frames : List Frame} {b c : Scope} {inner rest : List Token}
    (hi : run functions ⟨⟨id, args, b⟩ :: frames, .empty⟩ inner =
      some ⟨⟨id, args, b⟩ :: frames, c⟩) :
    run functions ⟨frames, b⟩ (.opener id args :: (inner ++ .closer id' :: rest)) =
      run functions ⟨frames, b.add ((Frame.mk id args b).node functions c)⟩ rest := by
  have h1 : step functions ⟨⟨id, args, b⟩ :: frames, c⟩ (.closer id') =
      some ⟨frames, b.add ((Frame.mk id args b).node functions c)⟩ := by
    rw [step]
    simp only [h, beq_self_eq_true, if_true]
  rw [run, step, Option.bind_some, run_append, hi, Option.bind_some, run, h1, Option.bind_some]

/-- A balanced sequence leaves the open blocks alone. The scope reads the fragment that the tokens
build behind what it has read before. -/
theorem run_balanced {ts : List Token} (h : Bracket.Balanced Token.bracket? ts) :
    ∀ {frames : List Frame} {b : Scope} {g : Fragment}, Holds (!frames.isEmpty) b g →
      ∃ (f : Fragment) (b' : Scope),
        Piece.Builds functions g.text.length (ts.map Token.piece) f ∧
          run functions ⟨frames, b⟩ ts = some ⟨frames, b'⟩ ∧
            Holds (!frames.isEmpty) b' ⟨g.text ++ f.text, g.nodes ++ f.nodes⟩ := by
  induction h with
  | nil =>
    intro frames b g h
    refine ⟨⟨[], []⟩, b, .nil _, rfl, ?_⟩
    rwa [List.append_nil, List.append_nil]
  | @leaf t ts hb _ ih =>
    intro frames b g h
    obtain ⟨b₁, d, h1, h2, h3⟩ := exists_step_leaf functions hb h
    obtain ⟨f, b', h4, h5, h6⟩ := ih h2
    refine ⟨⟨d.text ++ f.text, d.nodes ++ f.nodes⟩, b', h3 h4, ?_, ?_⟩
    · rw [run, h1]
      exact h5
    · rw [← List.append_assoc, ← List.append_assoc]
      exact h6
  | @block o c n inner rest _ ho hc _ _ ihi ihr =>
    intro frames b g h
    obtain ⟨id, args, rfl, rfl⟩ := exists_opener ho
    obtain ⟨id', rfl, hid⟩ := exists_closer hc
    -- the body is read in a scope of its own, and its node is added to the one around
    have h0 : Holds (!(Frame.mk id args b :: frames).isEmpty) .empty ⟨[], []⟩ := holds_empty true
    obtain ⟨g₁, b₁, h1, h2, h3⟩ := ihi h0
    have h4 : (Frame.mk id args b).node functions b₁ =
        compiledBlock functions id args b.position g₁ := h3.node functions
    obtain ⟨f, b', h5, h6, h7⟩ := ihr (h.add (n := compiledBlock functions id args b.position g₁)
      fun _ _ => isElse_compiledBlock functions id args b.position g₁)
    refine ⟨_, b', builds_block functions hid h1 h5, ?_, ?_⟩
    · rw [run_block functions hid.symm h2, h4]
      exact h6
    · rw [List.append_assoc] at h7
      exact h7

end

end StackParser

/-! ## The compiler and the parser -/

namespace Token

variable (functions : Functions Context)

theorem fragment_source_eq_ok_iff {ts : List Token} {f : Fragment} :
    Template.fragment functions 0 (source ts) = .ok f ↔
      Piece.Builds functions 0 (ts.map piece) f := by
  rw [← join_map_piece]
  exact (legible ts).fragment_eq_ok_iff

/-- The parser ends with what a nested sequence compiles to. -/
theorem fragment_source_of_nested {ts : List Token}
    (h : Bracket.Nested (ts.filterMap bracket?)) :
    ∃ f, Template.fragment functions 0 (source ts) = .ok f ∧
      (StackParser.run functions .init ts).bind StackParser.finish = some f := by
  have h0 : StackParser.Holds (!StackParser.State.init.frames.isEmpty) .empty ⟨[], []⟩ :=
    StackParser.holds_empty false
  obtain ⟨f, b, h1, h2, h3⟩ := StackParser.run_balanced functions
    (Bracket.balanced_iff.2 h) h0
  refine ⟨f, (fragment_source_eq_ok_iff functions).2 h1, ?_⟩
  have h4 : StackParser.run functions .init ts = some ⟨[], b⟩ := h2
  rw [h4]
  cases h3
  rfl

theorem fragment_source_of_not_nested {ts : List Token}
    (h : ¬ Bracket.Nested (ts.filterMap bracket?)) :
    (∃ e, Template.fragment functions 0 (source ts) = .error e) ∧
      (StackParser.run functions .init ts).bind StackParser.finish = none := by
  constructor
  · cases hf : Template.fragment functions 0 (source ts) with
    | error e => exact ⟨e, rfl⟩
    | ok f =>
      have h1 := ((fragment_source_eq_ok_iff functions).1 hf).nested
      rw [brackets_map_piece] at h1
      exact absurd h1 h
  · have h1 := StackParser.isSome_finish functions ts StackParser.State.init
    rw [← Option.not_isSome_iff_eq_none, h1]
    exact h

/-- Compiling the text of a sequence of tokens gives the tree that one pass with a stack builds, and
fails if and only if the openers and closers are not properly nested. -/
theorem compile_source (name : String) (ts : List Token) :
    (Template.compile functions (source ts) name).toOption = StackParser.parse functions name ts ∧
      ((∃ e, Template.compile functions (source ts) name = .error e) ↔
        ¬ Bracket.Nested (ts.filterMap bracket?)) := by
  rw [Template.compile_eq, StackParser.parse]
  by_cases hn : Bracket.Nested (ts.filterMap bracket?)
  · obtain ⟨f, h1, h2⟩ := fragment_source_of_nested functions hn
    rw [h1, h2]
    exact ⟨rfl, by simp [Except.map, hn]⟩
  · obtain ⟨⟨e, h1⟩, h2⟩ := fragment_source_of_not_nested functions hn
    rw [h1, h2]
    exact ⟨rfl, by simp [Except.map, hn]⟩

end Token

end ThemeTemplates
