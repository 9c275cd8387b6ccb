import ThemeTemplates.Files.FileSystem
import ThemeTemplates.Registry.Error
import ThemeTemplates.Registry.Options
import ThemeTemplates.Template

/-! # Generations

A generation is the templates of one theme, compiled by one rebuild. The rebuild walks the directory
of the theme, compiles each template file it meets under the name of the file, and checks that the
mandatory templates are there. A name that is met twice is an error, noticed before the second file
is read.

* `Generation.compileTheme` compiles the files of a directory.
* `Generation.compile` checks the mandatory templates as well.
-/

namespace ThemeTemplates

set_option autoImplicit false

structure Generation where
  templates : Table String Node
  theme : String
  /-- How many rebuilds succeeded up to this one, without an upper bound. -/
  number : Nat
  deriving DecidableEq

namespace Generation

variable {Context : Type}

/-- What is there before the first rebuild: no templates of a theme without a name. -/
def initial : Generation := ⟨[], "", 0⟩

def get? (g : Generation) (name : String) : Option Node := Table.get? name g.templates

def names (g : Generation) : List String := Table.keys g.templates

def compileTemplate (functions : Functions Context) (name : String) (src : Bytes) :
    Except RegistryError Node :=
  match Template.compile functions src name with
  | .ok root => .ok root
  | .error e => .error (.parse name e)

/-- The name of the template that an entry met at a path holds. Directories hold none. -/
def templateName? (met : Path × Entry) : Option String :=
  if met.2.isDirectory then none else Path.templateName? met.1

/-- Adds the template of this name that is stored at a path. -/
def addTemplate (functions : Functions Context) (fs : FileSystem) (templates : Table String Node)
    (path : Path) (name : String) : Except RegistryError (Table String Node) :=
  if Table.has name templates then .error (.duplicateTemplate name path)
  else
    match fs.read path with
    | .error e => .error (.read path e)
    | .ok data =>
      match compileTemplate functions name data with
      | .error e => .error e
      | .ok root => .ok (Table.insert name root templates)

/-- Adds what an entry holds: a template, if it is a template file. A directory adds nothing by
itself, but it has to be listed for the entries after it to be met. -/
def addEntry (functions : Functions Context) (fs : FileSystem) (templates : Table String Node)
    (met : Path × Entry) : Except RegistryError (Table String Node) :=
  if met.2.isDirectory then
    match fs.list met.1 with
    | .error e => .error (.walk met.1 e)
    | .ok () => .ok templates
  else
    match templateName? met with
    | none => .ok templates
    | some name => addTemplate functions fs templates met.1 name

/-- Adds the templates of entries from the left. -/
def addEntries (functions : Functions Context) (fs : FileSystem) (templates : Table String Node) :
    List (Path × Entry) → Except RegistryError (Table String Node)
  | [] => .ok templates
  | met :: rest =>
    match addEntry functions fs templates met with
    | .error e => .error e
    | .ok templates => addEntries functions fs templates rest

/-- The templates of the files below a path. -/
def compileTheme (functions : Functions Context) (fs : FileSystem) (path : Path) :
    Except RegistryError (Table String Node) :=
  addEntries functions fs [] (fs.walk path)

/-- The first mandatory template that is missing. -/
def missing? (mandatory : List String) (templates : Table String Node) : Option String :=
  mandatory.find? fun name => !Table.has name templates

/-- The templates of the files below a path, the mandatory ones among them. -/
def compile (functions : Functions Context) (mandatory : List String) (fs : FileSystem)
    (path : Path) : Except RegistryError (Table String Node) :=
  match compileTheme functions fs path with
  | .error e => .error e
  | .ok templates =>
    match missing? mandatory templates with
    | some name => .error (.missingTemplate name)
    | none => .ok templates

end Generation

end ThemeTemplates
