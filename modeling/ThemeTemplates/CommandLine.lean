import ThemeTemplates.Outline
import ThemeTemplates.Registry

/-! # The command line

The command compiles a theme and prints the outline of each template, in the order of the names.

* `--themes` is the directory with the themes, `--theme` the name of the theme, `--debounce-ms` the
  rest that changes need; each value follows as the next argument or after an equals sign.
* `CommandLine.run` gives the exit code and what is printed. An error goes to the error output with
  its cause, and the exit code is one; arguments that cannot be read give the exit code two.
-/

namespace ThemeTemplates.CommandLine

set_option autoImplicit false

structure Settings where
  themes : Option String := none
  theme : Option String := none
  debounce : Option Nat := none
  deriving DecidableEq, Repr

inductive UsageError
  | unexpected (argument : String)
  | missingValue (argument : String)
  | repeated (argument : String)
  | invalidValue (argument value : String)
  deriving DecidableEq, Repr

def UsageError.message : UsageError → String
  | .unexpected a => "error: unexpected argument '" ++ a ++ "' found"
  | .missingValue a => "error: a value is required for '" ++ a ++ "' but none was supplied"
  | .repeated a => "error: the argument '" ++ a ++ "' cannot be used multiple times"
  | .invalidValue a v => "error: invalid value '" ++ v ++ "' for '" ++ a ++ "'"

/-! ## Arguments -/

/-- The first number that does not fit in sixty-four bits. -/
def numberLimit : Nat := 0x10000000000000000

/-- A number below the limit, a plus sign allowed in front. -/
def number? (s : String) : Option Nat :=
  let digits := match s.toList with
    | '+' :: r => r
    | r => r
  if digits.isEmpty || !digits.all Char.isDigit then none
  else
    let n := digits.foldl (fun n c => n * 10 + (c.toNat - '0'.toNat)) 0
    if n < numberLimit then some n else none

def set (s : Settings) (name value : String) : Except UsageError Settings :=
  if name == "--themes" then
    if s.themes.isSome then .error (.repeated name)
    else if value.isEmpty then .error (.missingValue name)
    else .ok { s with themes := some value }
  else if name == "--theme" then
    if s.theme.isSome then .error (.repeated name) else .ok { s with theme := some value }
  else if name == "--debounce-ms" then
    if s.debounce.isSome then .error (.repeated name)
    else
      match number? value with
      | some n => .ok { s with debounce := some n }
      | none => .error (.invalidValue name value)
  else .error (.unexpected name)

/-- Whether an argument has the form of an option, and so is no value. -/
def looksLikeOption (argument : String) : Bool :=
  match argument.toList with
  | '-' :: _ :: _ => true
  | _ => false

/-- The text before the first equals sign and the text after it. -/
def splitEquals? (argument : String) : Option (String × String) :=
  let cs := argument.toList
  match cs.dropWhile (· != '=') with
  | [] => none
  | _ :: value => some (String.ofList (cs.takeWhile (· != '=')), String.ofList value)

/-- The argument after which no options stand. -/
def endOfOptions : String := "--"

/-- Reads arguments from the left. After the end of the options nothing may follow. -/
def read (s : Settings) : List String → Except UsageError Settings
  | [] => .ok s
  | [argument] =>
    if argument == endOfOptions then .ok s
    else
      match splitEquals? argument with
      | some (name, value) => set s name value
      | none => .error (.missingValue argument)
  | argument :: next :: rest =>
    if argument == endOfOptions then .error (.unexpected next)
    else
      match splitEquals? argument with
      | some (name, value) => (set s name value).bind fun s => read s (next :: rest)
      | none =>
        if looksLikeOption next then .error (.missingValue argument)
        else (set s argument next).bind fun s => read s rest

/-! ## The command -/

def Settings.themeName (s : Settings) : String := s.theme.getD "casper"

def Settings.options (s : Settings) : Options :=
  let standard : Options := {}
  { standard with
    themesPath := (s.themes.map Utf8.ofString).getD standard.themesPath
    debounce := s.debounce.getD standard.debounce }

/-- What the command leaves: its exit code and the texts it prints. -/
structure Result where
  exit : Nat
  output : String
  errors : String
  deriving DecidableEq, Repr

/-- The outlines of a generation under a line that names it. -/
def report (g : Generation) : String :=
  "theme " ++ g.theme ++ " (generation " ++ toString g.number ++ ")\n" ++
    String.join (g.templates.map fun t => t.2.outline)

/-- A text behind a lead, with each line after the first one indented. -/
def indented (lead margin text : String) : String :=
  lead ++ String.ofList (text.toList.flatMap fun c => if c == '\n' then c :: margin.toList else [c])

/-- The causes from this number on, a line for each. -/
def numbered (n : Nat) : List String → String
  | [] => ""
  | cause :: causes =>
    "\n" ++ indented ("    " ++ toString n ++ ": ") "       " cause ++ numbered (n + 1) causes

/-- What is printed for the causes of an error. Several causes are numbered. -/
def causeText : List String → String
  | [] => ""
  | [cause] => "\n\nCaused by:\n" ++ indented "    " "    " cause
  | causes => "\n\nCaused by:" ++ numbered 0 causes

def failure (e : RegistryError) : String :=
  "Error: " ++ e.message ++ causeText e.causes ++ "\n"

def execute (fs : FileSystem) (s : Settings) : Result :=
  let functions : Functions Unit := Functions.addBuiltins []
  match Registry.load s.options functions fs (.ok s.themeName) with
  | .ok r => ⟨0, report r.committed, ""⟩
  | .error e => ⟨1, "", failure e⟩

def run (fs : FileSystem) (arguments : List String) : Result :=
  match read {} arguments with
  | .ok s => execute fs s
  | .error e => ⟨2, "", e.message ++ "\n"⟩

end ThemeTemplates.CommandLine
