import ThemeTemplates.Registry.Generation
import ThemeTemplates.Registry.Queue

/-! # The registry of templates

A registry serves the templates of the active theme. A rebuild compiles a generation beside the
committed one and replaces it only if it is complete, so what is served is always the whole result
of one rebuild, or the initial generation.

* `Registry.regenerate` rebuilds from files and an answer of the theme source.
* `Registry.request` leaves the rebuild to the worker once there is one.

In development mode each rebuild that finds the directory of the theme starts the worker, if it does
not run, and watches the directories of the theme instead of those watched before, whether the
templates compile or not.
-/

namespace ThemeTemplates

set_option autoImplicit false

structure Registry (Context : Type) where
  options : Options
  functions : Functions Context
  committed : Generation
  /-- How many rebuilds succeeded. It has no upper bound: a counter of 64 bits would be the same up to
  `2 ^ 64` successful rebuilds, which no run comes to. -/
  counter : Nat
  watched : List Path
  /-- The queue of the worker, once that runs. -/
  queue : Option Queue

namespace Registry

variable {Context : Type}

def new (options : Options) (functions : Functions Context) : Registry Context :=
  { options, functions := functions.withNull, committed := .initial, counter := 0, watched := []
    queue := none }

/-- The registry after a step, and how the step ended. -/
abbrev Outcome (Context : Type) := Registry Context × Except RegistryError Unit

/-! ## Stages of a rebuild -/

def activeTheme (answer : Except String String) : Except RegistryError String :=
  match answer with
  | .ok theme => .ok theme
  | .error message => .error (.config message)

/-- The directory of the theme, if there is one. -/
def themeDirectory (r : Registry Context) (fs : FileSystem) (theme : String) :
    Except RegistryError Path :=
  let path := r.options.themePath theme
  if fs.isDirectory path then .ok path else .error (.themeNotFound path)

/-- Replaces the committed generation. -/
def commit (r : Registry Context) (theme : String) (templates : Table String Node) :
    Registry Context :=
  { r with
    counter := r.counter + 1
    committed := ⟨templates, theme, r.counter + 1⟩ }

/-- In development mode, starts the worker and watches the directories of a theme. -/
def watch (r : Registry Context) (fs : FileSystem) (path : Path) : Registry Context :=
  if r.options.development then
    { r with watched := fs.watchable path, queue := some (r.queue.getD .empty) }
  else r

section Watch

variable (r : Registry Context) (fs : FileSystem) (path : Path)

@[simp] theorem committed_watch : (r.watch fs path).committed = r.committed := by
  unfold watch
  split <;> rfl

@[simp] theorem counter_watch : (r.watch fs path).counter = r.counter := by
  unfold watch
  split <;> rfl

@[simp] theorem options_watch : (r.watch fs path).options = r.options := by
  unfold watch
  split <;> rfl

@[simp] theorem functions_watch : (r.watch fs path).functions = r.functions := by
  unfold watch
  split <;> rfl

end Watch

/-- Compiles the theme in a directory, commits it if that succeeds, and watches the directory in
either case. -/
def rebuild (r : Registry Context) (fs : FileSystem) (theme : String) (path : Path) :
    Outcome Context :=
  match Generation.compile r.functions r.options.mandatory fs path with
  | .ok templates => ((r.commit theme templates).watch fs path, .ok ())
  | .error e => (r.watch fs path, .error e)

def regenerate (r : Registry Context) (fs : FileSystem) (answer : Except String String) :
    Outcome Context :=
  match activeTheme answer with
  | .error e => (r, .error e)
  | .ok theme =>
    match r.themeDirectory fs theme with
    | .error e => (r, .error e)
    | .ok path => r.rebuild fs theme path

/-! ## Requests -/

/-- Takes a request out of the queue and rebuilds, if one waits. -/
def work (r : Registry Context) (fs : FileSystem) (answer : Except String String) :
    Registry Context :=
  match r.queue.bind Queue.take? with
  | none => r
  | some q => ({ r with queue := some q }.regenerate fs answer).1

/-- Asks for a rebuild. If there is a worker, it finishes the rebuild before anything else happens,
and the request succeeds whatever comes of it; otherwise the rebuild is made at once. -/
def request (r : Registry Context) (fs : FileSystem) (answer : Except String String) :
    Outcome Context :=
  match r.queue with
  | none => r.regenerate fs answer
  | some q => ({ r with queue := some q.request }.work fs answer, .ok ())

/-! ## Loading -/

/-- A registry that has compiled its theme. -/
def load (options : Options) (functions : Functions Context) (fs : FileSystem)
    (answer : Except String String) : Except RegistryError (Registry Context) :=
  match (new options functions).regenerate fs answer with
  | (r, .ok ()) => .ok r
  | (_, .error e) => .error e

/-- Compiles one template that the registry does not keep. -/
def compileTemplate (r : Registry Context) (name : String) (src : Bytes) :
    Except RegistryError Node :=
  Generation.compileTemplate r.functions name src

end Registry

end ThemeTemplates
