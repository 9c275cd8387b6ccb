import ThemeTemplates.Session

/-! # Development mode serves the same

In development mode a registry watches directories and has a worker, and nothing of that reaches what
it serves.

* `Registry.production` is a registry as it were without development mode. A rebuild, a request and the
  loading of a registry do to it what they do in development mode, and end alike, but for a request
  that is left to the worker (`regenerate_production`, `request_production`, `load_production`).
* `Session.run_production`: so does every run of a session.
* `Session.run_development`: two sessions that only differ in the mode serve the same after each step.
-/

namespace ThemeTemplates

set_option autoImplicit false

variable {Context : Type}

def Options.production (o : Options) : Options := { o with development := false }

namespace Registry

/-- The registry as it were without development mode: it watches nothing and has no worker. -/
def production (r : Registry Context) : Registry Context :=
  { r with
    options := r.options.production
    watched := []
    queue := none }

variable (r : Registry Context) (fs : FileSystem)

@[simp] theorem production_requeue (q : Option Queue) :
    { r with queue := q }.production = r.production := rfl

@[simp] theorem production_watch (path : Path) : (r.watch fs path).production = r.production := by
  unfold watch
  split <;> rfl

theorem watch_production (path : Path) : r.production.watch fs path = r.production :=
  if_neg Bool.false_ne_true

theorem commit_production (theme : String) (templates : Table String Node) :
    r.production.commit theme templates = (r.commit theme templates).production := rfl

theorem rebuild_production (theme : String) (path : Path) :
    r.production.rebuild fs theme path =
      ((r.rebuild fs theme path).1.production, (r.rebuild fs theme path).2) := by
  unfold rebuild
  have e : Generation.compile r.production.functions r.production.options.mandatory fs path =
      Generation.compile r.functions r.options.mandatory fs path := rfl
  rw [e]
  cases Generation.compile r.functions r.options.mandatory fs path with
  | ok templates => simp only [commit_production, watch_production, production_watch]
  | error e => simp only [watch_production, production_watch]

theorem regenerate_production (answer : Except String String) :
    r.production.regenerate fs answer =
      ((r.regenerate fs answer).1.production, (r.regenerate fs answer).2) := by
  cases answer with
  | error message => rfl
  | ok theme =>
    have e : r.production.themeDirectory fs theme = r.themeDirectory fs theme := rfl
    simp only [regenerate, activeTheme, e]
    cases r.themeDirectory fs theme with
    | error e => rfl
    | ok path => exact r.rebuild_production fs theme path

variable {r} in
/-- The worker takes the request at once and rebuilds. -/
theorem request_of_some {q : Queue} (h : r.queue = some q) (answer : Except String String) :
    r.request fs answer = (({ r with queue := some .empty }.regenerate fs answer).1, .ok ()) := by
  unfold request
  rw [h]
  rfl

variable {r} in
theorem request_of_none (h : r.queue = none) (answer : Except String String) :
    r.request fs answer = r.regenerate fs answer := by
  unfold request
  rw [h]

/-- A request that is left to the worker changes what a rebuild at once would change. -/
theorem request_production (answer : Except String String) :
    r.production.request fs answer =
      ((r.request fs answer).1.production, (r.regenerate fs answer).2) := by
  rw [request_of_none fs rfl, regenerate_production]
  cases hq : r.queue with
  | none => rw [request_of_none fs hq]
  | some q =>
    have h := { r with queue := some Queue.empty }.regenerate_production fs answer
    rw [production_requeue, regenerate_production] at h
    rw [request_of_some fs hq, (Prod.mk.inj h).1]

/-- A request that is left to the worker succeeds. -/
theorem request_snd (answer : Except String String) :
    (r.request fs answer).2 = if r.queue.isSome then .ok () else (r.regenerate fs answer).2 := by
  cases hq : r.queue with
  | none => rw [request_of_none fs hq]; rfl
  | some q => rw [request_of_some fs hq]; rfl

theorem load_production (options : Options) (functions : Functions Context)
    (answer : Except String String) :
    load options.production functions fs answer =
      (load options functions fs answer).map production := by
  have h := (new options functions).regenerate_production fs answer
  have e : (new options functions).production = new options.production functions := rfl
  rw [e] at h
  rw [load, load, h]
  rcases (new options functions).regenerate fs answer with ⟨r, e | u⟩ <;> rfl

end Registry

namespace Session

/-- The session with its registry as it were without development mode. -/
def production (s : Session Context) : Session Context :=
  { s with registry := s.registry.production }

/-- How a step ends, but that a request succeeds where there is a worker. -/
def result (s : Session Context) (worker : Bool) : Step → Except RegistryError Unit
  | .request => if worker then .ok () else (s.step .request).2
  | t => (s.step t).2

theorem step_production (s : Session Context) (t : Step) :
    (s.production.step t).1 = (s.step t).1.production ∧
      (s.step t).2 = s.production.result s.registry.queue.isSome t := by
  cases t with
  | edit e => exact ⟨rfl, rfl⟩
  | setAnswer a => exact ⟨rfl, rfl⟩
  | hold slot => exact ⟨rfl, rfl⟩
  | regenerate =>
    have h := s.registry.regenerate_production s.files s.source.answer
    simp only [step, result, settle, production, h, and_self]
  | regenerateClone =>
    have h := s.registry.regenerate_production s.files s.source.answer
    simp only [step, result, settle, production, h, and_self]
  | load =>
    have h : Registry.load s.production.registry.options s.production.registry.functions
        s.production.files s.production.source.answer =
          (Registry.load s.registry.options s.registry.functions s.files s.source.answer).map
            Registry.production :=
      Registry.load_production s.files s.registry.options s.registry.functions s.source.answer
    have e : s.production.result s.registry.queue.isSome .load = (s.production.step .load).2 := rfl
    rw [e, step, step, h]
    cases Registry.load s.registry.options s.registry.functions s.files s.source.answer <;>
      exact ⟨rfl, rfl⟩
  | request =>
    have h := s.registry.request_production s.files s.source.answer
    have h1 := s.registry.request_snd s.files s.source.answer
    simp only [step, result, settle, production, h, h1, and_self]

theorem run_production (s : Session Context) (ts : List Step) :
    s.production.run ts = (s.run ts).production := by
  induction ts generalizing s with
  | nil => rfl
  | cons t ts ih => rw [run, run, (s.step_production t).1, ih]

/-- Of two sessions that only differ in the mode, both serve the same after any steps, and the next
step ends alike in both. Only a request that the worker takes in development mode succeeds whatever
comes of its rebuild. -/
theorem run_development (files : FileSystem) (source : ThemeSource) (options : Options)
    (functions : Functions Context) (ts : List Step) :
    let s := (start files source { options with development := false } functions).run ts
    let d := (start files source { options with development := true } functions).run ts
    d.registry.committed = s.registry.committed ∧ d.registry.counter = s.registry.counter ∧
      d.replaced = s.replaced ∧ d.held = s.held ∧
      ∀ t, (d.step t).2 = s.result d.registry.queue.isSome t := by
  intro s d
  have h : s = d.production :=
    (start files source { options with development := true } functions).run_production ts
  rw [h]
  exact ⟨rfl, rfl, rfl, rfl, fun t => (d.step_production t).2⟩

end Session

end ThemeTemplates
