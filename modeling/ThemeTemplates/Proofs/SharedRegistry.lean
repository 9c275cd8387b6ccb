import Mathlib
import ThemeTemplates.Files.Edit
import ThemeTemplates.Proofs.GenerationOutput

/-! # Rebuilds and readers at the same time

Any number of rebuilds share one registry. Each takes the lock, makes its steps one by one and gives
the lock back, while the files and the answer of the source change and readers look at what is
committed.

* `Registry.advance` is one step of a rebuild that holds the lock.
* `Shared.Next` is one step of anyone, `Shared.Reachable` what any order of steps leads to.
* `Shared.Sound` is what every step preserves. `Reachable.serialized`: one rebuild at a time holds the
  lock, commits are numbered from one, and readers see nothing but complete generations, in order.
* `Shared.exists_regenerate`: a rebuild that nobody disturbs does what `Registry.regenerate` does.
* `Shared.run` makes a list of moves one by one. `reaches_iff_exists_run`: any order of steps is one.
-/

namespace ThemeTemplates

set_option autoImplicit false

variable {Context : Type}

/-! ## Steps of a rebuild -/

/-- What a rebuild has put together. -/
structure Draft where
  theme : String
  path : Path
  seen : List Seen
  templates : Table String Node
  /-- Whether the files were edited during the walk. -/
  disturbed : Bool

inductive Stage
  | waiting
  /-- Has the lock and will ask the source. -/
  | locked
  /-- Will check the directory of this theme. -/
  | named (theme : String)
  /-- Walks the directory and has still to meet these entries. -/
  | compiling (d : Draft) (todo : List (Path × Entry))
  /-- Has found the mandatory templates and will count itself. -/
  | complete (d : Draft)
  /-- Will replace the committed generation. -/
  | counted (d : Draft)
  /-- Will watch the directory, whatever the result is. -/
  | watching (path : Path) (result : Except RegistryError Unit)
  /-- Will give the lock back. -/
  | leaving (result : Except RegistryError Unit)
  | done (result : Except RegistryError Unit)

namespace Stage

/-- Whether a rebuild in this stage has the lock. -/
def isInside : Stage → Bool
  | .waiting => false
  | .done _ => false
  | _ => true

/-- Whether the rebuild has replaced the committed generation. -/
def hasCommitted : Stage → Bool
  | .watching _ result => result.isOk
  | .leaving result => result.isOk
  | .done result => result.isOk
  | _ => false

/-- How far the counter is ahead of what is committed. -/
def ahead : Stage → Nat
  | .counted _ => 1
  | _ => 0

theorem ahead_of_not_inside {st : Stage} (h : st.isInside ≠ true) : st.ahead = 0 := by
  cases st with
  | counted d => exact absurd rfl h
  | _ => rfl

/-- The stage after an edit of the files. A walk may then go on with other entries. -/
def disturb (todo : List (Path × Entry)) : Stage → Stage
  | .compiling d _ => .compiling { d with disturbed := true } todo
  | st => st

section Disturb

variable (todo : List (Path × Entry)) (st : Stage)

@[simp] theorem isInside_disturb : (st.disturb todo).isInside = st.isInside := by cases st <;> rfl

@[simp] theorem hasCommitted_disturb : (st.disturb todo).hasCommitted = st.hasCommitted := by
  cases st <;> rfl

@[simp] theorem ahead_disturb : (st.disturb todo).ahead = st.ahead := by cases st <;> rfl

end Disturb

end Stage

/-- One step of a rebuild that has the lock. -/
def Registry.advance (r : Registry Context) (fs : FileSystem) (answer : Except String String) :
    Stage → Registry Context × Stage
  | .locked =>
    match activeTheme answer with
    | .error e => (r, .leaving (.error e))
    | .ok theme => (r, .named theme)
  | .named theme =>
    match r.themeDirectory fs theme with
    | .error e => (r, .leaving (.error e))
    | .ok path => (r, .compiling ⟨theme, path, [], [], false⟩ (fs.walk path))
  | .compiling d (met :: todo) =>
    match Generation.addEntry r.functions fs d.templates met with
    | .error e => (r, .watching d.path (.error e))
    | .ok templates =>
      (r, .compiling { d with seen := d.seen ++ [⟨fs, met⟩], templates := templates } todo)
  | .compiling d [] =>
    match Generation.missing? r.options.mandatory d.templates with
    | some name => (r, .watching d.path (.error (.missingTemplate name)))
    | none => (r, .complete d)
  | .complete d => ({ r with counter := r.counter + 1 }, .counted d)
  | .counted d =>
    ({ r with committed := ⟨d.templates, d.theme, r.counter⟩ }, .watching d.path (.ok ()))
  | .watching path result => (r.watch fs path, .leaving result)
  | st => (r, st)

/-! ## Steps of all -/

/-- A commit that was made, by which rebuild. -/
structure Commit where
  rebuild : Nat
  draft : Draft
  number : Nat

def Commit.generation (c : Commit) : Generation := ⟨c.draft.templates, c.draft.theme, c.number⟩

/-- A registry with those who use it. Rebuilds and readers are numbered. -/
structure Shared (Context : Type) where
  files : FileSystem
  answer : Except String String
  registry : Registry Context
  /-- The rebuild that has the lock. -/
  holder : Option Nat
  stage : Nat → Stage
  /-- The commits so far, the first one first. -/
  commits : List Commit
  /-- What each reader has read so far, in order. -/
  read : Nat → List Generation

namespace Shared

def start (files : FileSystem) (answer : Except String String) (options : Options)
    (functions : Functions Context) : Shared Context :=
  { files, answer, registry := .new options functions, holder := none, stage := fun _ => .waiting
    commits := [], read := fun _ => [] }

/-- The commit that the next step of a rebuild makes. -/
def commit? (s : Shared Context) (i : Nat) : Option Commit :=
  match s.stage i with
  | .counted d => some ⟨i, d, s.registry.counter⟩
  | _ => none

def advance (s : Shared Context) (i : Nat) : Shared Context :=
  let p := s.registry.advance s.files s.answer (s.stage i)
  { s with
    registry := p.1
    stage := Function.update s.stage i p.2
    commits := s.commits ++ (s.commit? i).toList }

inductive Next (s : Shared Context) : Shared Context → Prop
  /-- The files are edited, and a walk goes on with whatever it then meets. -/
  | edit (e : Edit) (todo : List (Path × Entry)) :
    Next s { s with files := s.files.edit e, stage := fun i => (s.stage i).disturb todo }
  | setAnswer (answer : Except String String) : Next s { s with answer := answer }
  | read (i : Nat) :
    Next s { s with
      read := Function.update s.read i (s.read i ++ [s.registry.committed]) }
  | lock (i : Nat) (free : s.holder = none) (waits : s.stage i = .waiting) :
    Next s { s with holder := some i, stage := Function.update s.stage i .locked }
  | advance (i : Nat) : Next s (s.advance i)
  | unlock (i : Nat) (result : Except RegistryError Unit) (leaves : s.stage i = .leaving result) :
    Next s { s with holder := none, stage := Function.update s.stage i (.done result) }

/-- What any order of steps leads to. -/
def Reachable (options : Options) (functions : Functions Context) (s : Shared Context) : Prop :=
  ∃ files answer, Relation.ReflTransGen Next (start files answer options functions) s

end Shared

/-! ## What holds in a stage -/

/-- The draft is the complete output of a rebuild: of what its walk met, each file as it was then. If
no edit disturbed the walk, it met all that was below the directory. -/
structure Draft.Whole (options : Options) (functions : Functions Context) (d : Draft) : Prop where
  path : d.path = options.themePath d.theme
  complete : Generation.Complete functions options.mandatory d.seen d.templates
  walked : d.disturbed = false → ∃ fs, d.seen = Seen.walk fs d.path

def Stage.Sound (options : Options) (functions : Functions Context) (fs : FileSystem) :
    Stage → Prop
  | .compiling d todo =>
    d.path = options.themePath d.theme ∧ Generation.Compiled functions d.seen d.templates ∧
      (d.disturbed = false → d.seen ++ todo.map (Seen.mk fs) = Seen.walk fs d.path)
  | .complete d => d.Whole options functions
  | .counted d => d.Whole options functions
  | _ => True

theorem Stage.Sound.disturb {options : Options} {functions : Functions Context}
    {fs fs' : FileSystem} {st : Stage} (h : st.Sound options functions fs)
    (todo : List (Path × Entry)) : (st.disturb todo).Sound options functions fs' := by
  cases st with
  | compiling d todo' => exact ⟨h.1, h.2.1, fun hd => by cases hd⟩
  | complete d => exact h
  | counted d => exact h
  | _ => trivial

/-- What a change of a rebuild's stage and of the registry keeps, if it is not a commit. -/
structure Registry.Quiet (options : Options) (functions : Functions Context) (fs : FileSystem)
    (r : Registry Context) (st : Stage) (p : Registry Context × Stage) : Prop where
  options_eq : p.1.options = r.options
  functions_eq : p.1.functions = r.functions
  committed_eq : p.1.committed = r.committed
  counter : p.1.counter + st.ahead = r.counter + p.2.ahead
  committers : p.2.hasCommitted = st.hasCommitted
  sound : p.2.Sound options functions fs

theorem Registry.quiet_advance {options : Options} {functions : Functions Context}
    {r : Registry Context} (ho : r.options = options) (hf : r.functions = functions)
    (fs : FileSystem) (answer : Except String String) {st : Stage}
    (hs : st.Sound options functions fs) (hc : ∀ d, st ≠ .counted d) :
    Quiet options functions fs r st (r.advance fs answer st) ∧
      (r.advance fs answer st).2.isInside = st.isInside := by
  cases st with
  | waiting => exact ⟨⟨rfl, rfl, rfl, rfl, rfl, trivial⟩, rfl⟩
  | locked =>
    cases answer with
    | error message => exact ⟨⟨rfl, rfl, rfl, rfl, rfl, trivial⟩, rfl⟩
    | ok theme => exact ⟨⟨rfl, rfl, rfl, rfl, rfl, trivial⟩, rfl⟩
  | named theme =>
    rw [advance, themeDirectory]
    by_cases hd : fs.isDirectory (r.options.themePath theme) = true
    · simp only [hd, if_true]
      refine ⟨⟨rfl, rfl, rfl, rfl, rfl, ?_, Generation.Compiled.nil, ?_⟩, rfl⟩
      · rw [ho]
      · intro _
        rfl
    · simp only [hd]
      exact ⟨⟨rfl, rfl, rfl, rfl, rfl, trivial⟩, rfl⟩
  | compiling d todo =>
    obtain ⟨hp, hcomp, hw⟩ := hs
    cases todo with
    | nil =>
      cases hm : Generation.missing? r.options.mandatory d.templates with
      | some name =>
        rw [advance, hm]
        exact ⟨⟨rfl, rfl, rfl, rfl, rfl, trivial⟩, rfl⟩
      | none =>
        rw [advance, hm]
        rw [ho] at hm
        have hcomplete : Generation.Complete functions options.mandatory d.seen d.templates :=
          ⟨hcomp, Generation.missing?_eq_none_iff.1 hm⟩
        refine ⟨⟨rfl, rfl, rfl, rfl, rfl, hp, hcomplete, ?_⟩, rfl⟩
        intro hd
        exact ⟨fs, by simpa using hw hd⟩
    | cons met todo =>
      cases hm : Generation.addEntry r.functions fs d.templates met with
      | error e =>
        rw [advance, hm]
        exact ⟨⟨rfl, rfl, rfl, rfl, rfl, trivial⟩, rfl⟩
      | ok templates =>
        rw [advance, hm]
        rw [hf] at hm
        refine ⟨⟨rfl, rfl, rfl, rfl, rfl, hp, hcomp.addEntry (s := ⟨fs, met⟩) hm, ?_⟩, rfl⟩
        intro hd
        simpa using hw hd
  | complete d => exact ⟨⟨rfl, rfl, rfl, rfl, rfl, hs⟩, rfl⟩
  | counted d => exact absurd rfl (hc d)
  | watching path result =>
    rw [advance]
    exact ⟨⟨by simp, by simp, by simp, by simp [Stage.ahead], rfl, trivial⟩, rfl⟩
  | leaving result => exact ⟨⟨rfl, rfl, rfl, rfl, rfl, trivial⟩, rfl⟩
  | done result => exact ⟨⟨rfl, rfl, rfl, rfl, rfl, trivial⟩, rfl⟩

namespace Shared

/-! ## What every step preserves -/

/-- The generation is the initial one or that of a commit. -/
def Known (s : Shared Context) (g : Generation) : Prop :=
  g = .initial ∨ ∃ c ∈ s.commits, c.generation = g

/-- How far the counter is ahead of what is committed. -/
def ahead (s : Shared Context) : Nat := s.holder.elim 0 fun i => (s.stage i).ahead

structure Sound (options : Options) (functions : Functions Context) (s : Shared Context) :
    Prop where
  options_eq : s.registry.options = options
  functions_eq : s.registry.functions = functions
  inside : ∀ i, (s.stage i).isInside = true ↔ s.holder = some i
  stages : ∀ i, (s.stage i).Sound options functions s.files
  counter : s.registry.counter = s.registry.committed.number + s.ahead
  number : s.registry.committed.number = s.commits.length
  committed : s.Known s.registry.committed
  numbers : s.commits.map Commit.number = List.range' 1 s.commits.length
  committers : ∀ i, i ∈ s.commits.map Commit.rebuild ↔ (s.stage i).hasCommitted = true
  once : (s.commits.map Commit.rebuild).Nodup
  whole : ∀ c ∈ s.commits, c.draft.Whole options functions
  known : ∀ i, ∀ g ∈ s.read i, s.Known g
  bounded : ∀ i, ∀ g ∈ s.read i, g.number ≤ s.registry.committed.number
  ordered : ∀ i, (s.read i).Pairwise fun g g' => g.number ≤ g'.number

namespace Sound

variable {options : Options} {functions : Functions Context} {s : Shared Context}

theorem start (files : FileSystem) (answer : Except String String) (options : Options)
    (functions : Functions Context) :
    Sound options functions.withNull (Shared.start files answer options functions) where
  options_eq := rfl
  functions_eq := rfl
  inside := by simp [Shared.start, Stage.isInside]
  stages := fun _ => trivial
  counter := rfl
  number := rfl
  committed := .inl rfl
  numbers := rfl
  committers := by simp [Shared.start, Stage.hasCommitted]
  once := List.nodup_nil
  whole := by simp [Shared.start]
  known := by simp [Shared.start]
  bounded := by simp [Shared.start]
  ordered := by simp [Shared.start]

/-- A step that neither commits nor reads. -/
theorem quiet (hs : s.Sound options functions) {t : Shared Context}
    (ho : t.registry.options = s.registry.options)
    (hf : t.registry.functions = s.registry.functions)
    (hg : t.registry.committed = s.registry.committed)
    (hcounter : t.registry.counter + s.ahead = s.registry.counter + t.ahead)
    (hinside : ∀ i, (t.stage i).isInside = true ↔ t.holder = some i)
    (hstages : ∀ i, (t.stage i).Sound options functions t.files)
    (hdone : ∀ i, (t.stage i).hasCommitted = (s.stage i).hasCommitted)
    (hcommits : t.commits = s.commits) (hread : t.read = s.read) : t.Sound options functions where
  options_eq := by rw [ho, hs.options_eq]
  functions_eq := by rw [hf, hs.functions_eq]
  inside := hinside
  stages := hstages
  counter := by
    have h := hs.counter
    rw [hg]
    omega
  number := by rw [hg, hcommits, hs.number]
  committed := by
    rw [hg, Known, hcommits]
    exact hs.committed
  numbers := by rw [hcommits, hs.numbers]
  committers := by
    intro i
    rw [hcommits, hdone]
    exact hs.committers i
  once := by
    rw [hcommits]
    exact hs.once
  whole := by
    rw [hcommits]
    exact hs.whole
  known := by
    intro i g h
    rw [hread] at h
    rw [Known, hcommits]
    exact hs.known i g h
  bounded := by
    rw [hread, hg]
    exact hs.bounded
  ordered := by
    rw [hread]
    exact hs.ordered

theorem holder_of_inside (hs : s.Sound options functions) {i : Nat}
    (hi : (s.stage i).isInside = true) : s.holder = some i := (hs.inside i).1 hi

theorem holder_ne_of_inside (hs : s.Sound options functions) {i : Nat}
    (hi : (s.stage i).isInside = true) : ∀ j, j ≠ i → s.holder ≠ some j := by
  intro j hj
  rw [hs.holder_of_inside hi]
  exact fun e => hj (Option.some.inj e).symm

theorem edit (hs : s.Sound options functions) (e : Edit) (todo : List (Path × Entry)) :
    Sound options functions
      { s with files := s.files.edit e, stage := fun i => (s.stage i).disturb todo } := by
  refine hs.quiet rfl rfl rfl ?_ ?_ ?_ ?_ rfl rfl
  · simp [Shared.ahead]
  · simpa using hs.inside
  · exact fun i => (hs.stages i).disturb todo
  · simp

theorem setAnswer (hs : s.Sound options functions) (answer : Except String String) :
    Sound options functions { s with answer := answer } :=
  hs.quiet rfl rfl rfl rfl hs.inside hs.stages (fun _ => rfl) rfl rfl

theorem read (hs : s.Sound options functions) (i : Nat) :
    Sound options functions
      { s with read := Function.update s.read i (s.read i ++ [s.registry.committed]) } := by
  have hlast : ∀ {P : Generation → Prop}, (∀ g ∈ s.read i, P g) → P s.registry.committed →
      ∀ g ∈ s.read i ++ [s.registry.committed], P g := by
    intro P h1 h2
    exact List.forall_mem_append.2 ⟨h1, List.forall_mem_singleton.2 h2⟩
  have hordered : (s.read i ++ [s.registry.committed]).Pairwise fun g g' =>
      g.number ≤ g'.number := by
    refine List.pairwise_append.2 ⟨hs.ordered i, List.pairwise_singleton _ _, ?_⟩
    intro g hg
    exact List.forall_mem_singleton.2 (hs.bounded i g hg)
  refine { hs with known := ?_, bounded := ?_, ordered := ?_ }
  · exact (Function.forall_update_iff s.read fun _ l => ∀ g ∈ l, s.Known g).2
      ⟨hlast (hs.known i) hs.committed, fun j _ => hs.known j⟩
  · exact (Function.forall_update_iff s.read fun _ l =>
      ∀ g ∈ l, g.number ≤ s.registry.committed.number).2
        ⟨hlast (hs.bounded i) (Nat.le_refl _), fun j _ => hs.bounded j⟩
  · exact (Function.forall_update_iff s.read fun _ l =>
      l.Pairwise fun g g' => g.number ≤ g'.number).2 ⟨hordered, fun j _ => hs.ordered j⟩

/-- One rebuild goes to another stage, while no other has the lock. -/
theorem restage (hs : s.Sound options functions) {i : Nat} {p : Registry Context × Stage}
    (hq : Registry.Quiet options functions s.files s.registry (s.stage i) p)
    (hfree : ∀ j, j ≠ i → s.holder ≠ some j) :
    Sound options functions
      { s with
        registry := p.1
        holder := if p.2.isInside then some i else none
        stage := Function.update s.stage i p.2 } := by
  have hs0 : s.ahead = (s.stage i).ahead := by
    cases hh : s.holder with
    | none =>
      have h1 : (s.stage i).isInside ≠ true := by simp [hs.inside, hh]
      rw [Shared.ahead, hh, Stage.ahead_of_not_inside h1]
      rfl
    | some j =>
      have h1 : j = i := by
        by_cases h : j = i
        · exact h
        · exact absurd hh (hfree j h)
      rw [Shared.ahead, hh, h1]
      rfl
  refine hs.quiet hq.options_eq hq.functions_eq hq.committed_eq ?_ ?_ ?_ ?_ rfl rfl
  · rw [hs0]
    refine hq.counter.trans ?_
    by_cases h : p.2.isInside = true
    · simp [Shared.ahead, h]
    · simp [Shared.ahead, h, Stage.ahead_of_not_inside h]
  · refine (Function.forall_update_iff s.stage fun j st => st.isInside = true ↔
      (if p.2.isInside then some i else none) = some j).2 ⟨by simp, ?_⟩
    intro j h
    have h1 : (s.stage j).isInside ≠ true := fun h1 => hfree j h ((hs.inside j).1 h1)
    simp [Ne.symm h, h1]
  · exact (Function.forall_update_iff s.stage fun _ st => st.Sound options functions s.files).2
      ⟨hq.sound, fun j _ => hs.stages j⟩
  · exact (Function.forall_update_iff s.stage fun j st => st.hasCommitted =
      (s.stage j).hasCommitted).2 ⟨hq.committers, fun _ _ => rfl⟩

theorem lock (hs : s.Sound options functions) {i : Nat} (free : s.holder = none)
    (waits : s.stage i = .waiting) :
    Sound options functions
      { s with holder := some i, stage := Function.update s.stage i .locked } := by
  have hq : Registry.Quiet options functions s.files s.registry (s.stage i)
      (s.registry, .locked) := by
    rw [waits]
    exact ⟨rfl, rfl, rfl, rfl, rfl, trivial⟩
  exact hs.restage hq (by simp [free])

theorem unlock (hs : s.Sound options functions) {i : Nat} {result : Except RegistryError Unit}
    (leaves : s.stage i = .leaving result) :
    Sound options functions
      { s with holder := none, stage := Function.update s.stage i (.done result) } := by
  have hq : Registry.Quiet options functions s.files s.registry (s.stage i)
      (s.registry, .done result) := by
    rw [leaves]
    exact ⟨rfl, rfl, rfl, rfl, rfl, trivial⟩
  exact hs.restage hq (hs.holder_ne_of_inside (by rw [leaves]; rfl))

/-- A rebuild that has counted itself commits its draft. -/
theorem commit (hs : s.Sound options functions) {i : Nat} {d : Draft}
    (hd : s.stage i = .counted d) :
    Sound options functions
      { s with
        registry := { s.registry with committed := ⟨d.templates, d.theme, s.registry.counter⟩ }
        stage := Function.update s.stage i (.watching d.path (.ok ()))
        commits := s.commits ++ [⟨i, d, s.registry.counter⟩] } := by
  have hh : s.holder = some i := hs.holder_of_inside (by rw [hd]; rfl)
  have hcount : s.registry.counter = s.commits.length + 1 := by
    have h := hs.counter
    rw [Shared.ahead, hh, hs.number] at h
    simpa [hd, Stage.ahead] using h
  have hnew : i ∉ s.commits.map Commit.rebuild := by
    intro h
    rw [hs.committers, hd] at h
    cases h
  have hknown : ∀ {g : Generation}, s.Known g → ∀ t : Shared Context,
      t.commits = s.commits ++ [⟨i, d, s.registry.counter⟩] → t.Known g := by
    rintro g (h | ⟨c, hc, h⟩) t ht
    · exact .inl h
    · exact .inr ⟨c, by rw [ht]; exact List.mem_append_left _ hc, h⟩
  constructor
  · exact hs.options_eq
  · exact hs.functions_eq
  · exact (Function.forall_update_iff s.stage fun j st => st.isInside = true ↔
      s.holder = some j).2 ⟨by simp [Stage.isInside, hh], fun j _ => hs.inside j⟩
  · exact (Function.forall_update_iff s.stage fun _ st => st.Sound options functions s.files).2
      ⟨trivial, fun j _ => hs.stages j⟩
  · simp [Shared.ahead, hh, Stage.ahead]
  · simpa using hcount
  · exact .inr ⟨⟨i, d, s.registry.counter⟩, by simp, rfl⟩
  · rw [List.map_append, hs.numbers, List.length_append]
    simp [List.range'_concat, hcount, Nat.add_comm]
  · refine (Function.forall_update_iff s.stage fun j st => j ∈ List.map Commit.rebuild
      (s.commits ++ [⟨i, d, s.registry.counter⟩]) ↔ st.hasCommitted = true).2 ⟨?_, ?_⟩
    · simp [Stage.hasCommitted, Except.isOk, Except.toBool]
    · intro j h
      rw [List.map_append, List.mem_append, hs.committers]
      simp [h]
  · rw [List.map_append]
    refine List.nodup_append.2 ⟨hs.once, by simp, ?_⟩
    intro j hj k hk hjk
    cases List.mem_singleton.1 hk
    rw [hjk] at hj
    exact hnew hj
  · refine List.forall_mem_append.2 ⟨hs.whole, List.forall_mem_singleton.2 ?_⟩
    have h := hs.stages i
    rw [hd] at h
    exact h
  · exact fun j g hg => hknown (hs.known j g hg) _ rfl
  · intro j g hg
    have h := hs.bounded j g hg
    rw [hs.number] at h
    simp only
    omega
  · exact hs.ordered

theorem advance (hs : s.Sound options functions) (i : Nat) :
    (s.advance i).Sound options functions := by
  by_cases hin : (s.stage i).isInside = true
  · by_cases hd : ∃ d, s.stage i = .counted d
    · obtain ⟨d, hd⟩ := hd
      have h := hs.commit hd
      simp only [Shared.advance, commit?, hd]
      exact h
    · have hd1 : ∀ d, s.stage i ≠ .counted d := fun d h => hd ⟨d, h⟩
      have hc : s.commit? i = none := by
        unfold commit?
        split
        next d h => exact absurd h (hd1 d)
        next => rfl
      obtain ⟨hq, hst⟩ := Registry.quiet_advance hs.options_eq hs.functions_eq s.files s.answer
        (hs.stages i) hd1
      have h := hs.restage hq (hs.holder_ne_of_inside hin)
      rw [hst, if_pos hin, ← hs.holder_of_inside hin] at h
      simp only [Shared.advance, hc]
      simpa using h
  · -- a rebuild without the lock stays as it is
    have h : s.advance i = s := by
      unfold Shared.advance commit?
      cases hst : s.stage i with
      | waiting => simp [Registry.advance, ← hst]
      | done result => simp [Registry.advance, ← hst]
      | _ => simp [hst, Stage.isInside] at hin
    rw [h]
    exact hs

theorem next (hs : s.Sound options functions) {t : Shared Context} (h : Next s t) :
    t.Sound options functions := by
  cases h with
  | edit e todo => exact hs.edit e todo
  | setAnswer answer => exact hs.setAnswer answer
  | read i => exact hs.read i
  | lock i free waits => exact hs.lock free waits
  | advance i => exact hs.advance i
  | unlock i result leaves => exact hs.unlock leaves

end Sound

/-! ## A rebuild that nobody disturbs -/

/-- The steps of a rebuild, while the files and the answer stay as they are. -/
abbrev Leads (fs : FileSystem) (answer : Except String String) :
    Registry Context × Stage → Registry Context × Stage → Prop :=
  Relation.ReflTransGen fun p q => q = p.1.advance fs answer p.2

section Leads

variable (fs : FileSystem) (answer : Except String String) (r : Registry Context)

theorem leads_advance (st : Stage) : Leads fs answer (r, st) (r.advance fs answer st) :=
  .single rfl

theorem leads_addEntries (todo : List (Path × Entry)) : ∀ d : Draft,
    Leads fs answer (r, .compiling d todo)
      (r, match Generation.addEntries r.functions fs d.templates todo with
        | .error e => .watching d.path (.error e)
        | .ok templates =>
          .compiling { d with seen := d.seen ++ todo.map (Seen.mk fs), templates := templates }
            []) := by
  induction todo with
  | nil =>
    intro d
    rw [Generation.addEntries, List.map_nil, List.append_nil]
  | cons met todo ih =>
    intro d
    have h1 := leads_advance fs answer r (.compiling d (met :: todo))
    rw [Generation.addEntries]
    cases hm : Generation.addEntry r.functions fs d.templates met with
    | error e =>
      rw [Registry.advance, hm] at h1
      exact h1
    | ok templates =>
      rw [Registry.advance, hm] at h1
      have h2 := ih { d with seen := d.seen ++ [⟨fs, met⟩], templates := templates }
      have h := h1.trans h2
      rwa [List.append_assoc] at h

theorem leads_watching (path : Path) (result : Except RegistryError Unit) :
    Leads fs answer (r, .watching path result) (r.watch fs path, .leaving result) :=
  leads_advance fs answer r (.watching path result)

/-- The count, the swap and the watching after it. -/
theorem leads_complete (d : Draft) :
    Leads fs answer (r, .complete d)
      ((r.commit d.theme d.templates).watch fs d.path, .leaving (.ok ())) := by
  have h1 := leads_advance fs answer r (.complete d)
  have h2 := leads_advance fs answer { r with counter := r.counter + 1 } (.counted d)
  have h3 := leads_watching fs answer (r.commit d.theme d.templates) d.path (.ok ())
  exact (h1.trans h2).trans h3

theorem leads_rebuild (theme : String) (path : Path) :
    Leads fs answer (r, .compiling ⟨theme, path, [], [], false⟩ (fs.walk path))
      ((r.rebuild fs theme path).1, .leaving (r.rebuild fs theme path).2) := by
  have h1 := leads_addEntries fs answer r (fs.walk path) ⟨theme, path, [], [], false⟩
  rw [Registry.rebuild, Generation.compile, Generation.compileTheme]
  cases ht : Generation.addEntries r.functions fs [] (fs.walk path) with
  | error e =>
    simp only [ht] at h1 ⊢
    exact h1.trans (leads_watching fs answer r path _)
  | ok templates =>
    simp only [ht] at h1 ⊢
    have h2 := leads_advance fs answer r
      (.compiling ⟨theme, path, [] ++ (fs.walk path).map (Seen.mk fs), templates, false⟩ [])
    rw [Registry.advance] at h2
    cases hm : Generation.missing? r.options.mandatory templates with
    | some name =>
      simp only [hm] at h2 ⊢
      exact (h1.trans h2).trans (leads_watching fs answer r path _)
    | none =>
      simp only [hm] at h2 ⊢
      exact (h1.trans h2).trans (leads_complete fs answer r _)

theorem leads_regenerate :
    Leads fs answer (r, .locked)
      ((r.regenerate fs answer).1, .leaving (r.regenerate fs answer).2) := by
  have h1 := leads_advance fs answer r .locked
  rw [Registry.advance] at h1
  rw [Registry.regenerate]
  cases ha : Registry.activeTheme answer with
  | error e =>
    rw [ha] at h1
    exact h1
  | ok theme =>
    simp only [ha] at h1 ⊢
    have h2 := leads_advance fs answer r (.named theme)
    rw [Registry.advance] at h2
    cases hp : r.themeDirectory fs theme with
    | error e =>
      rw [hp] at h2
      exact h1.trans h2
    | ok path =>
      simp only [hp] at h2 ⊢
      exact (h1.trans h2).trans (leads_rebuild fs answer r theme path)

end Leads

/-- The steps of one rebuild, seen from outside. -/
theorem exists_of_leads {s : Shared Context} {i : Nat} {p : Registry Context × Stage}
    (h : Leads s.files s.answer (s.registry, s.stage i) p) :
    ∃ commits, Relation.ReflTransGen Next s
      { s with registry := p.1, stage := Function.update s.stage i p.2, commits := commits } := by
  induction h with
  | refl => exact ⟨s.commits, by simpa using Relation.ReflTransGen.refl⟩
  | @tail p q _ hq ih =>
    obtain ⟨commits, h⟩ := ih
    subst hq
    let t : Shared Context :=
      { s with registry := p.1, stage := Function.update s.stage i p.2, commits := commits }
    have h1 : t.advance i =
        { s with
          registry := (p.1.advance s.files s.answer p.2).1
          stage := Function.update s.stage i (p.1.advance s.files s.answer p.2).2
          commits := (t.advance i).commits } := by
      simp [advance, t]
    have h2 := h.tail (Next.advance (s := t) i)
    rw [h1] at h2
    exact ⟨_, h2⟩

/-- A rebuild that nobody disturbs ends as `Registry.regenerate` does. -/
theorem exists_regenerate {s : Shared Context} {i : Nat} (free : s.holder = none)
    (waits : s.stage i = .waiting) :
    ∃ commits, Relation.ReflTransGen Next s
      { s with
        registry := (s.registry.regenerate s.files s.answer).1
        stage := Function.update s.stage i (.done (s.registry.regenerate s.files s.answer).2)
        commits := commits } := by
  let t : Shared Context :=
    { s with holder := some i, stage := Function.update s.stage i .locked }
  have h1 : Next s t := .lock i free waits
  have h2 : Leads t.files t.answer (t.registry, t.stage i)
      ((s.registry.regenerate s.files s.answer).1,
        .leaving (s.registry.regenerate s.files s.answer).2) := by
    simpa [t] using leads_regenerate s.files s.answer s.registry
  obtain ⟨commits, h3⟩ := exists_of_leads h2
  have h4 := (Relation.ReflTransGen.head h1 h3).tail (.unlock i _ (Function.update_self ..))
  refine ⟨commits, ?_⟩
  simpa [t, free] using h4

/-! ## Runs, move by move -/

/-- What someone does, with all that is left to choose. -/
inductive Move
  | edit (e : Edit) (todo : List (Path × Entry))
  | setAnswer (answer : Except String String)
  | read (i : Nat)
  | lock (i : Nat)
  | advance (i : Nat)
  | unlock (i : Nat)

/-- The state after a move. A move that cannot be made changes nothing: a rebuild that does not get
the lock goes on waiting. -/
def move (s : Shared Context) : Move → Shared Context
  | .edit e todo => { s with files := s.files.edit e, stage := fun i => (s.stage i).disturb todo }
  | .setAnswer answer => { s with answer := answer }
  | .read i => { s with read := Function.update s.read i (s.read i ++ [s.registry.committed]) }
  | .lock i =>
    match s.holder, s.stage i with
    | none, .waiting => { s with holder := some i, stage := Function.update s.stage i .locked }
    | _, _ => s
  | .advance i => s.advance i
  | .unlock i =>
    match s.stage i with
    | .leaving result =>
      { s with holder := none, stage := Function.update s.stage i (.done result) }
    | _ => s

def run (s : Shared Context) (ms : List Move) : Shared Context := ms.foldl move s

section Run

variable {s t : Shared Context}

theorem move_eq_or_next (s : Shared Context) (m : Move) : s.move m = s ∨ Next s (s.move m) := by
  cases m with
  | edit e todo => exact .inr (.edit e todo)
  | setAnswer answer => exact .inr (.setAnswer answer)
  | read i => exact .inr (.read i)
  | lock i =>
    simp only [move]
    split
    next free waits => exact .inr (.lock i free waits)
    next => exact .inl rfl
  | advance i => exact .inr (.advance i)
  | unlock i =>
    simp only [move]
    split
    next result leaves => exact .inr (.unlock i result leaves)
    next => exact .inl rfl

theorem exists_move_of_next (h : Next s t) : ∃ m, s.move m = t := by
  cases h with
  | edit e todo => exact ⟨.edit e todo, rfl⟩
  | setAnswer answer => exact ⟨.setAnswer answer, rfl⟩
  | read i => exact ⟨.read i, rfl⟩
  | lock i free waits => exact ⟨.lock i, by simp only [move, free, waits]⟩
  | advance i => exact ⟨.advance i, rfl⟩
  | unlock i result leaves => exact ⟨.unlock i, by simp only [move, leaves]⟩

theorem reaches_run (ms : List Move) (s : Shared Context) :
    Relation.ReflTransGen Next s (s.run ms) := by
  induction ms generalizing s with
  | nil => exact .refl
  | cons m ms ih =>
    have h1 : Relation.ReflTransGen Next (s.move m) (s.run (m :: ms)) := ih (s.move m)
    rcases s.move_eq_or_next m with h | h
    · rwa [h] at h1
    · exact .head h h1

/-- Any order of steps is a list of moves. -/
theorem reaches_iff_exists_run : Relation.ReflTransGen Next s t ↔ ∃ ms, s.run ms = t := by
  constructor
  · intro h
    induction h with
    | refl => exact ⟨[], rfl⟩
    | tail _ h1 ih =>
      obtain ⟨ms, rfl⟩ := ih
      obtain ⟨m, rfl⟩ := exists_move_of_next h1
      exact ⟨ms ++ [m], List.foldl_append⟩
  · rintro ⟨ms, rfl⟩
    exact reaches_run ms s

end Run

/-! ## What every interleaving keeps -/

theorem Reachable.sound {options : Options} {functions : Functions Context} {s : Shared Context}
    (h : Reachable options functions s) : s.Sound options functions.withNull := by
  obtain ⟨files, answer, h⟩ := h
  induction h with
  | refl => exact Sound.start files answer options functions
  | tail _ hn ih => exact ih.next hn

/-- Whoever may take part and in whatever order: one rebuild at a time has the lock. What a reader
gets is the initial generation or the complete output of exactly one rebuild, and its numbers never go
down. The commits are numbered from one without a gap, no rebuild makes two, and the counter is that
of the committed generation whenever the lock is free. -/
theorem Reachable.serialized {options : Options} {functions : Functions Context}
    {s : Shared Context} (h : Reachable options functions s) :
    (∀ i, (s.stage i).isInside = true ↔ s.holder = some i) ∧
    (∀ i, ∀ g ∈ s.read i, g = .initial ∨
      ∃ c ∈ s.commits, c.generation = g ∧ c.draft.Whole options functions.withNull ∧
        ∀ c' ∈ s.commits, c'.generation = g → c' = c) ∧
    (s.commits.map Commit.rebuild).Nodup ∧
    s.commits.map Commit.number = List.range' 1 s.commits.length ∧
    (∀ i, (s.read i).Pairwise fun g g' => g.number ≤ g'.number) ∧
    (s.holder = none → s.registry.counter = s.registry.committed.number) := by
  have hs := h.sound
  refine ⟨hs.inside, ?_, hs.once, hs.numbers, hs.ordered, ?_⟩
  · intro i g hg
    rcases hs.known i g hg with h1 | ⟨c, hc, h1⟩
    · exact .inl h1
    · refine .inr ⟨c, hc, h1, hs.whole c hc, ?_⟩
      intro c' hc' h2
      have hnodup : (s.commits.map Commit.number).Nodup := by
        rw [hs.numbers]
        exact List.nodup_range'
      have hnumber : c'.number = c.number := congrArg Generation.number (h2.trans h1.symm)
      exact List.inj_on_of_nodup_map hnodup hc' hc hnumber
  · intro free
    have h1 := hs.counter
    rw [ahead, free] at h1
    exact h1

/-- The theme `a` with one template, `i.hbs`, which holds `x`. -/
def oneTemplate : FileSystem :=
  ⟨.directory [([0x61], .directory [([0x69, 0x2E, 0x68, 0x62, 0x73], .file [0x78])])], []⟩

/-- Two readers and three rebuilds. The files are edited under the walk of the first rebuild, the
second one asks for the lock meanwhile, and both readers look on. In `s` the first one has counted
itself and not yet committed. Then it commits, the second one fails, and the third one commits. -/
theorem serialized_readers :
    let options : Options := { themesPath := [], mandatory := ["i"] }
    let file : Path := [0x61, 0x2F, 0x69, 0x2E, 0x68, 0x62, 0x73]
    let s : Shared Unit := (start oneTemplate (.ok "a") options []).run
      [.read 0, .lock 0, .advance 0, .advance 0, .lock 1, .read 1,
        .edit (.write file [0x79]) [(file, .file [0x79])], .advance 0, .advance 0, .advance 0,
        .read 0]
    let t := s.run
      [.advance 0, .read 1, .setAnswer (.error "x"), .advance 0, .unlock 0, .lock 1, .advance 1,
        .unlock 1, .setAnswer (.ok "a"), .lock 2, .advance 2, .advance 2, .read 0, .advance 2,
        .advance 2, .advance 2, .advance 2, .read 1, .advance 2, .read 0, .advance 2, .unlock 2,
        .read 1]
    (Reachable options [] s ∧ s.holder = some 0 ∧ s.registry.counter = 1 ∧
      s.registry.committed.number = 0 ∧ ∀ i, (s.stage i).isInside = true ↔ s.holder = some i) ∧
    Reachable options [] t ∧ t.holder = none ∧
      (t.read 0).map Generation.number = [0, 0, 1, 2] ∧
      (t.read 1).map Generation.number = [0, 1, 1, 2] ∧
      (t.commits.map fun c => (c.rebuild, c.draft.disturbed)) = [(0, true), (2, false)] ∧
      (∀ i, ∀ g ∈ t.read i, g = .initial ∨
        ∃ c ∈ t.commits, c.generation = g ∧
          c.draft.Whole options (Functions.withNull ([] : Functions Unit)) ∧
          ∀ c' ∈ t.commits, c'.generation = g → c' = c) ∧
      t.commits.map Commit.number = List.range' 1 t.commits.length ∧
      t.registry.counter = t.registry.committed.number := by
  intro options file s t
  have h1 : Relation.ReflTransGen Next (start oneTemplate (.ok "a") options []) s := reaches_run _ _
  have hs : Reachable options [] s := ⟨oneTemplate, .ok "a", h1⟩
  have ht : Reachable options [] t := ⟨oneTemplate, .ok "a", h1.trans (reaches_run _ s)⟩
  have free : t.holder = none := by cbv
  obtain ⟨hinside, -⟩ := hs.serialized
  obtain ⟨-, hread, -, hcommits, -, hcounter⟩ := ht.serialized
  refine ⟨⟨hs, ?_, ?_, ?_, hinside⟩, ht, free, ?_, ?_, ?_, hread, hcommits, hcounter free⟩ <;>
    cbv

end Shared

end ThemeTemplates
