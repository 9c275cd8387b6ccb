import Mathlib
import ThemeTemplates.Proofs.GenerationOutput
import ThemeTemplates.Session

/-! # What is served after the rebuilds of a session

A journal is a session with the rebuilds that were made of the registry it serves.

* `Registry.ask` leaves a rebuild to the worker and does not wait; `Registry.request_eq` says that a
  request is that and the work after it. So a turn is a step, a request alone, or the work alone.
* `Registry.regenerate_cases` is all that a rebuild can do.
* `Journal.Sound` is what every turn preserves. `Journal.committed_run`: a registry serves the initial
  generation or the complete output of the last rebuild that succeeded, and a rebuild that fails
  changes nothing of it.
-/

namespace ThemeTemplates

set_option autoImplicit false

variable {Context : Type}

theorem Functions.withNull_withNull (functions : Functions Context) :
    functions.withNull.withNull = functions.withNull := by
  have h : Table.has nullName functions.withNull = true := by
    unfold withNull
    split
    next h => exact h
    next => simp [addBuiltins, Table.has]
  rw [withNull, if_pos h]

namespace Registry

/-! ## Rebuilds -/

theorem regenerate_of_directory {r : Registry Context} {fs : FileSystem} {theme : String}
    (h : fs.isDirectory (r.options.themePath theme) = true) :
    r.regenerate fs (.ok theme) = r.rebuild fs theme (r.options.themePath theme) := by
  simp [regenerate, activeTheme, themeDirectory, h]

/-- How a rebuild ends. A failure leaves all but the watching as it was. A success commits the
templates of the theme that the source names. -/
theorem regenerate_cases (r : Registry Context) (fs : FileSystem) (answer : Except String String) :
    (∃ e, (r.regenerate fs answer).2 = .error e ∧
      ((r.regenerate fs answer).1 = r ∨ ∃ path, (r.regenerate fs answer).1 = r.watch fs path)) ∨
    (∃ theme templates, answer = .ok theme ∧
      Generation.compile r.functions r.options.mandatory fs (r.options.themePath theme) =
        .ok templates ∧
      r.regenerate fs answer =
        ((r.commit theme templates).watch fs (r.options.themePath theme), .ok ())) := by
  cases answer with
  | error message => exact .inl ⟨.config message, rfl, .inl rfl⟩
  | ok theme =>
    by_cases hd : fs.isDirectory (r.options.themePath theme) = true
    · have e := regenerate_of_directory hd
      cases hc : Generation.compile r.functions r.options.mandatory fs
          (r.options.themePath theme) with
      | ok templates =>
        refine .inr ⟨theme, templates, rfl, hc, ?_⟩
        rw [e, rebuild, hc]
      | error failure =>
        refine .inl ⟨failure, ?_, .inr ⟨r.options.themePath theme, ?_⟩⟩ <;> rw [e, rebuild, hc]
    · have e : r.regenerate fs (.ok theme) =
          (r, .error (.themeNotFound (r.options.themePath theme))) := by
        simp [regenerate, activeTheme, themeDirectory, hd]
      rw [e]
      exact .inl ⟨_, rfl, .inl rfl⟩

/-- How a rebuild ends does not depend on the queue. -/
theorem regenerate_queue (r : Registry Context) (q : Option Queue) (fs : FileSystem)
    (answer : Except String String) :
    ({ r with queue := q }.regenerate fs answer).2 = (r.regenerate fs answer).2 := by
  cases answer with
  | error message => rfl
  | ok theme =>
    unfold regenerate activeTheme themeDirectory rebuild
    dsimp only
    by_cases hd : fs.isDirectory (r.options.themePath theme) = true
    · simp only [hd, if_true]
      cases Generation.compile r.functions r.options.mandatory fs (r.options.themePath theme) <;> rfl
    · simp only [hd]
      rfl

/-! ## Requests -/

/-- Asks for a rebuild. If there is a worker, the rebuild is left to it, otherwise it is made at
once. -/
def ask (r : Registry Context) (fs : FileSystem) (answer : Except String String) :
    Outcome Context :=
  match r.queue with
  | none => r.regenerate fs answer
  | some q => ({ r with queue := some q.request }, .ok ())

theorem request_eq (r : Registry Context) (fs : FileSystem) (answer : Except String String) :
    r.request fs answer =
      if r.queue.isSome then ((r.ask fs answer).1.work fs answer, .ok ()) else r.ask fs answer := by
  unfold request ask
  cases r.queue <;> rfl

end Registry

/-! ## Turns -/

/-- What happens in a session: a step, or a half of a request. -/
inductive Turn
  | step (s : Step)
  /-- Asks for a rebuild and goes on. -/
  | ask
  /-- The worker takes a request, if one waits, and makes the rebuild. -/
  | work

def Turn.loads : Turn → Bool
  | .step .load => true
  | _ => false

/-- A rebuild: the files and the answer that it had, and how it ended. -/
structure Rebuild where
  files : FileSystem
  answer : Except String String
  outcome : Except RegistryError Unit

def Rebuild.succeeded (b : Rebuild) : Bool := b.outcome.isOk

namespace Session

def turn (s : Session Context) : Turn → Session Context
  | .step t => (s.step t).1
  | .ask => (s.settle (s.registry.ask s.files s.source.answer)).1
  | .work => { s with registry := s.registry.work s.files s.source.answer }

/-- The rebuild of the registry served, if it is made now. -/
def attempt (s : Session Context) : Rebuild :=
  ⟨s.files, s.source.answer, (s.registry.regenerate s.files s.source.answer).2⟩

/-- The first rebuild of a registry that is loaded now. -/
def loading (s : Session Context) : Rebuild :=
  ⟨s.files, s.source.answer,
    ((Registry.new s.registry.options s.registry.functions).regenerate s.files s.source.answer).2⟩

/-- The rebuild that is made in a turn. -/
def rebuild? (s : Session Context) : Turn → Option Rebuild
  | .step .regenerate => some s.attempt
  | .step .regenerateClone => some s.attempt
  | .step .load => some s.loading
  | .step .request => some s.attempt
  | .ask => if s.registry.queue.isSome then none else some s.attempt
  | .work => if s.registry.queue.any Queue.pending then some s.attempt else none
  | .step _ => none

end Session

/-- A session, and the rebuilds of the registry it serves. -/
structure Journal (Context : Type) where
  session : Session Context
  rebuilds : List Rebuild

namespace Journal

def start (files : FileSystem) (source : ThemeSource) (options : Options)
    (functions : Functions Context) : Journal Context :=
  ⟨.start files source options functions, []⟩

def committed (j : Journal Context) : Generation := j.session.registry.committed

/-- The rebuilds after one more. A registry that is loaded starts anew. -/
def record (rebuilds : List Rebuild) (t : Turn) (b : Rebuild) : List Rebuild :=
  if t.loads && b.succeeded then [b] else rebuilds ++ [b]

def turn (j : Journal Context) (t : Turn) : Journal Context where
  session := j.session.turn t
  rebuilds := (j.session.rebuild? t).elim j.rebuilds (record j.rebuilds t)

def run (j : Journal Context) : List Turn → Journal Context
  | [] => j
  | t :: ts => run (j.turn t) ts

end Journal

/-! ## What is served -/

/-- The rebuild succeeded, and the generation is the complete output that it gave. -/
structure Rebuild.Made (options : Options) (functions : Functions Context) (b : Rebuild)
    (g : Generation) : Prop where
  succeeded : b.succeeded = true
  theme : b.answer = .ok g.theme
  complete : Generation.Complete functions options.mandatory
    (Seen.walk b.files (options.themePath g.theme)) g.templates

/-- The generation is the initial one and no rebuild succeeded, or it is that of the last rebuild that
succeeded and counts those that did. -/
def Generation.Latest (options : Options) (functions : Functions Context) (bs : List Rebuild)
    (g : Generation) : Prop :=
  ((∀ b ∈ bs, b.succeeded = false) ∧ g = .initial) ∨
    ∃ earlier b later, bs = earlier ++ b :: later ∧ b.Made options functions g ∧
      (∀ b ∈ later, b.succeeded = false) ∧ g.number = bs.countP Rebuild.succeeded

namespace Registry

/-- The registry is one with these options and functions after these rebuilds. -/
structure Sound (options : Options) (functions : Functions Context) (bs : List Rebuild)
    (r : Registry Context) : Prop where
  options_eq : r.options = options
  functions_eq : r.functions = functions
  counter_eq : r.counter = bs.countP Rebuild.succeeded
  latest : r.committed.Latest options functions bs

theorem committed_of_failed {r : Registry Context} {fs : FileSystem}
    {answer : Except String String} (h : (r.regenerate fs answer).2.isOk = false) :
    (r.regenerate fs answer).1.committed = r.committed ∧
      (r.regenerate fs answer).1.counter = r.counter := by
  rcases r.regenerate_cases fs answer with ⟨e, -, h1 | ⟨path, h1⟩⟩ | ⟨theme, templates, -, -, h1⟩
  · simp [h1]
  · simp [h1]
  · rw [h1] at h
    cases h

namespace Sound

variable {options : Options} {functions : Functions Context} {bs : List Rebuild}
  {r : Registry Context}

theorem new (options : Options) (functions : Functions Context) :
    Sound options functions.withNull [] (Registry.new options functions) where
  options_eq := rfl
  functions_eq := rfl
  counter_eq := rfl
  latest := .inl ⟨by simp, rfl⟩

theorem requeue (hs : Sound options functions bs r) (q : Option Queue) :
    Sound options functions bs { r with queue := q } :=
  ⟨hs.options_eq, hs.functions_eq, hs.counter_eq, hs.latest⟩

/-- A rebuild that fails is recorded, and nothing else. -/
theorem fail {b : Rebuild} (hs : Sound options functions bs r) (hb : b.succeeded = false) :
    Sound options functions (bs ++ [b]) r := by
  have hc : (bs ++ [b]).countP Rebuild.succeeded = bs.countP Rebuild.succeeded := by
    simp [List.countP_append, hb]
  have hall : ∀ {l : List Rebuild}, (∀ b ∈ l, b.succeeded = false) →
      ∀ b' ∈ l ++ [b], b'.succeeded = false := by
    intro l hl
    exact List.forall_mem_append.2 ⟨hl, List.forall_mem_singleton.2 hb⟩
  refine ⟨hs.options_eq, hs.functions_eq, by rw [hc, hs.counter_eq], ?_⟩
  rcases hs.latest with ⟨h, hg⟩ | ⟨earlier, b', later, rfl, hm, hl, hn⟩
  · exact .inl ⟨hall h, hg⟩
  · exact .inr ⟨earlier, b', later ++ [b], by simp, hm, hall hl, by rw [hc, hn]⟩

theorem regenerate (hs : Sound options functions bs r) (fs : FileSystem)
    (answer : Except String String) :
    Sound options functions (bs ++ [⟨fs, answer, (r.regenerate fs answer).2⟩])
      (r.regenerate fs answer).1 := by
  rcases r.regenerate_cases fs answer with ⟨e, he, h⟩ | ⟨theme, templates, ha, hc, h⟩
  · have h1 : Sound options functions (bs ++ [⟨fs, answer, (r.regenerate fs answer).2⟩]) r :=
      hs.fail (by rw [he]; rfl)
    rcases h with h | ⟨path, h⟩
    · rw [h]
      exact h1
    · rw [h]
      exact ⟨by simp [h1.options_eq], by simp [h1.functions_eq], by simp [h1.counter_eq],
        by simpa using h1.latest⟩
  · rw [h]
    have hn : r.counter + 1 =
        (bs ++ [(⟨fs, answer, .ok ()⟩ : Rebuild)]).countP Rebuild.succeeded := by
      rw [List.countP_append, hs.counter_eq]
      rfl
    rw [hs.functions_eq, hs.options_eq] at hc
    refine ⟨by simp [commit, hs.options_eq], by simp [commit, hs.functions_eq], by simp [commit, hn], ?_⟩
    simp only [committed_watch]
    exact .inr ⟨bs, ⟨fs, answer, .ok ()⟩, [], rfl,
      ⟨rfl, ha, Generation.complete_of_compile hc⟩, by simp, hn⟩

end Sound

end Registry

/-! ## Runs -/

/-- What a turn does to the registry: nothing but a change of the queue, a rebuild, or the loading of
another registry. -/
theorem Session.turn_cases (s : Session Context) (t : Turn) :
    (s.rebuild? t = none ∧ ∃ q, (s.turn t).registry = { s.registry with queue := q }) ∨
    (t.loads = false ∧ s.rebuild? t = some s.attempt ∧
      ∃ q, (s.turn t).registry =
        ({ s.registry with queue := q }.regenerate s.files s.source.answer).1) ∨
    (t.loads = true ∧ s.rebuild? t = some s.loading ∧
      (s.turn t).registry =
        if s.loading.succeeded then
          ((Registry.new s.registry.options s.registry.functions).regenerate s.files
            s.source.answer).1
        else s.registry) := by
  cases t with
  | step t =>
    cases t with
    | edit e => exact .inl ⟨rfl, s.registry.queue, rfl⟩
    | setAnswer a => exact .inl ⟨rfl, s.registry.queue, rfl⟩
    | hold slot => exact .inl ⟨rfl, s.registry.queue, rfl⟩
    | regenerate => exact .inr (.inl ⟨rfl, rfl, s.registry.queue, rfl⟩)
    | regenerateClone => exact .inr (.inl ⟨rfl, rfl, s.registry.queue, rfl⟩)
    | load =>
      refine .inr (.inr ⟨rfl, rfl, ?_⟩)
      rw [turn, step, Registry.load, Rebuild.succeeded, loading]
      rcases (Registry.new s.registry.options s.registry.functions).regenerate s.files
        s.source.answer with ⟨r, e | u⟩ <;> rfl
    | request =>
      obtain ⟨files, source, ⟨options, functions, committed, counter, watched, queue⟩, n, held⟩ := s
      cases queue with
      | none => exact .inr (.inl ⟨rfl, rfl, none, rfl⟩)
      | some q => exact .inr (.inl ⟨rfl, rfl, some .empty, rfl⟩)
  | ask =>
    obtain ⟨files, source, ⟨options, functions, committed, counter, watched, queue⟩, n, held⟩ := s
    cases queue with
    | none => exact .inr (.inl ⟨rfl, rfl, none, rfl⟩)
    | some q => exact .inl ⟨rfl, some q.request, rfl⟩
  | work =>
    obtain ⟨files, source, ⟨options, functions, committed, counter, watched, queue⟩, n, held⟩ := s
    rcases queue with _ | ⟨_ | _⟩
    · exact .inl ⟨rfl, none, rfl⟩
    · exact .inl ⟨rfl, some .empty, rfl⟩
    · exact .inr (.inl ⟨rfl, rfl, some .empty, rfl⟩)

/-- The rebuild does not depend on the queue. -/
theorem Session.attempt_queue (s : Session Context) (q : Option Queue) :
    (⟨s.files, s.source.answer,
      ({ s.registry with queue := q }.regenerate s.files s.source.answer).2⟩ : Rebuild) =
        s.attempt := by
  rw [attempt, Registry.regenerate_queue]

namespace Journal

/-- The registry of the journal is sound after the rebuilds that it lists. -/
def Sound (options : Options) (functions : Functions Context) (j : Journal Context) : Prop :=
  j.session.registry.Sound options functions.withNull j.rebuilds

variable {options : Options} {functions : Functions Context}

theorem Sound.turn {j : Journal Context} (hs : j.Sound options functions) (t : Turn) :
    (j.turn t).Sound options functions := by
  unfold Sound Journal.turn at *
  dsimp only
  rcases j.session.turn_cases t with ⟨hb, q, hr⟩ | ⟨hl, hb, q, hr⟩ | ⟨hl, hb, hr⟩
  · rw [hb, hr]
    exact hs.requeue q
  · have h := (hs.requeue q).regenerate j.session.files j.session.source.answer
    rw [Session.attempt_queue] at h
    rw [hb, hr]
    simpa [record, hl] using h
  · rw [hb, hr]
    by_cases hsucc : j.session.loading.succeeded = true
    · have h := (Registry.Sound.new j.session.registry.options
        j.session.registry.functions).regenerate j.session.files j.session.source.answer
      have e : Functions.withNull j.session.registry.functions = functions.withNull := by
        rw [hs.functions_eq, Functions.withNull_withNull]
      rw [e] at h
      simp only [Option.elim_some, record, hl, hsucc, if_true, Bool.and_self]
      rw [← hs.options_eq]
      exact h
    · have h := hs.fail (Bool.eq_false_iff.2 hsucc)
      simpa [record, hl, hsucc] using h

theorem Sound.run {j : Journal Context} (hs : j.Sound options functions) (ts : List Turn) :
    (j.run ts).Sound options functions := by
  induction ts generalizing j with
  | nil => exact hs
  | cons t ts ih => exact ih (hs.turn t)

/-- A rebuild that fails leaves what is served and its number as they were. -/
theorem committed_turn_of_failed (j : Journal Context) {t : Turn} {b : Rebuild}
    (hb : j.session.rebuild? t = some b) (hf : b.succeeded = false) :
    (j.turn t).committed = j.committed ∧
      (j.turn t).session.registry.counter = j.session.registry.counter := by
  unfold committed turn
  dsimp only
  rcases j.session.turn_cases t with ⟨h, -⟩ | ⟨-, h, q, hr⟩ | ⟨-, h, hr⟩
  · rw [hb] at h
    cases h
  · rw [hb] at h
    cases h
    rw [hr]
    rw [Rebuild.succeeded, Session.attempt, ← Registry.regenerate_queue _ q] at hf
    exact Registry.committed_of_failed hf
  · rw [hb] at h
    cases h
    rw [hr, hf]
    exact ⟨rfl, rfl⟩

/-- After any turns, what is served is the initial generation, if no rebuild of the registry has
succeeded, or the complete output of the last one that did, under the theme that the source gave it
and with the number of rebuilds that succeeded. A turn whose rebuild fails leaves it as it is. -/
theorem committed_run (files : FileSystem) (source : ThemeSource) (options : Options)
    (functions : Functions Context) (ts : List Turn) :
    let j := (start files source options functions).run ts
    (((∀ b ∈ j.rebuilds, b.succeeded = false) ∧ j.committed = .initial) ∨
      ∃ earlier b later, j.rebuilds = earlier ++ b :: later ∧
        b.Made options functions.withNull j.committed ∧ (∀ b ∈ later, b.succeeded = false) ∧
        j.committed.number = j.rebuilds.countP Rebuild.succeeded) ∧
    ∀ t b, j.session.rebuild? t = some b → b.succeeded = false →
      (j.turn t).committed = j.committed ∧
        (j.turn t).session.registry.counter = j.session.registry.counter := by
  intro j
  have h0 : (start files source options functions).Sound options functions :=
    Registry.Sound.new options functions
  have h : j.Sound options functions := h0.run ts
  exact ⟨h.latest, fun t b => j.committed_turn_of_failed⟩

/-- The directory of the theme goes away after the first rebuild, and the second one fails. -/
example :
    let files : FileSystem :=
      ⟨.directory [([0x61], .directory [([0x69, 0x2E, 0x68, 0x62, 0x73], .file [0x78])])], []⟩
    let j := (start files (.fixed "a") { themesPath := [], mandatory := ["i"] }
      ([] : Functions Unit)).run
        [.step .regenerate, .step (.edit (.remove [0x61])), .step .request]
    j.rebuilds.map Rebuild.succeeded = [true, false] ∧ j.committed.names = ["i"] := by
  constructor <;> cbv

end Journal

end ThemeTemplates
