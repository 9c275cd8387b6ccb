import ThemeTemplates.Files.Edit
import ThemeTemplates.Registry

/-! # Sessions

A session is a registry among files that change and a theme source whose answer changes. Its steps
edit the files, set the answer, rebuild in one way or another, and keep snapshots of what is served.

A registry that is loaded takes the place of the one before it, so a snapshot remembers which
registry of the session served it: `Session.isCurrent` says whether it is the one being served.
-/

namespace ThemeTemplates

set_option autoImplicit false

/-- What a registry served at some time. -/
structure Snapshot where
  /-- How many registries of the session came before the one that served it. -/
  registry : Nat
  generation : Generation
  deriving DecidableEq

inductive Step
  | edit (e : Edit)
  /-- Sets what the theme source answers. -/
  | setAnswer (answer : Except String String)
  /-- Keeps a snapshot under a name. -/
  | hold (slot : String)
  | regenerate
  /-- Rebuilds through another handle of the registry, which shares its state. -/
  | regenerateClone
  /-- Loads a registry with the same options and functions. -/
  | load
  | request

/-- A registry, the files and the theme source that it reads, and the snapshots that are held. -/
structure Session (Context : Type) where
  files : FileSystem
  source : ThemeSource
  registry : Registry Context
  /-- How many registries came before this one. -/
  replaced : Nat
  held : Table String Snapshot

namespace Session

variable {Context : Type}

/-- A session whose registry has not been built. -/
def start (files : FileSystem) (source : ThemeSource) (options : Options)
    (functions : Functions Context) : Session Context :=
  { files, source, registry := .new options functions, replaced := 0, held := [] }

def snapshot (s : Session Context) : Snapshot := ⟨s.replaced, s.registry.committed⟩

/-- Whether a snapshot is what is served now. A registry numbers its generations, so no two of one
registry have the same number. -/
def isCurrent (s : Session Context) (old : Snapshot) : Bool :=
  old.registry == s.replaced && old.generation.number == s.registry.committed.number

/-- The session with another registry state, and how the step that led there ended. -/
def settle (s : Session Context) (o : Registry.Outcome Context) :
    Session Context × Except RegistryError Unit :=
  ({ s with registry := o.1 }, o.2)

/-- The session after a step, and how the step ended. -/
def step (s : Session Context) : Step → Session Context × Except RegistryError Unit
  | .edit e => ({ s with files := s.files.edit e }, .ok ())
  | .setAnswer a => ({ s with source := s.source.set a }, .ok ())
  | .hold slot => ({ s with held := Table.insert slot s.snapshot s.held }, .ok ())
  | .regenerate => s.settle (s.registry.regenerate s.files s.source.answer)
  | .regenerateClone => s.settle (s.registry.regenerate s.files s.source.answer)
  | .load =>
    match Registry.load s.registry.options s.registry.functions s.files s.source.answer with
    | .ok r => ({ s with registry := r, replaced := s.replaced + 1 }, .ok ())
    | .error e => (s, .error e)
  | .request => s.settle (s.registry.request s.files s.source.answer)

def run (s : Session Context) : List Step → Session Context
  | [] => s
  | step :: steps => run (s.step step).1 steps

def heldSnapshot? (s : Session Context) (slot : String) : Option Snapshot := Table.get? slot s.held

/-- Whether the template of a name is the same in a snapshot and in what is served now. Without a
snapshot, the name has to be without a template. -/
def sameTemplate (s : Session Context) (slot name : String) : Bool :=
  decide ((s.heldSnapshot? slot).bind (·.generation.get? name) = s.registry.committed.get? name)

end Session

end ThemeTemplates
