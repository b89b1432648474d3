import GioForge.Path

/-!
The command line. Arguments are taken from left to right and the first thing that settles the matter
counts, be it a call for help or a mistake.
-/

namespace GioForge.Command

inductive Shell where
  | bash
  | elvish
  | fish
  | powershell
  | zsh
  deriving DecidableEq, Inhabited

def Shell.ofName? : String → Option Shell
  | "bash" => some .bash
  | "elvish" => some .elvish
  | "fish" => some .fish
  | "powershell" => some .powershell
  | "zsh" => some .zsh
  | _ => none

def defaultConfig : Path := ⟨"msg2go.toml"⟩

/-- Where the documents come from: a settings file, and paths that go before what it says. -/
structure Sources where
  config : Path := defaultConfig
  ui : Option Path := none
  relation : Option Path := none
  deriving DecidableEq, Inhabited

inductive Request where
  /-- Compile and write the program, or only show it. -/
  | bake (sources : Sources) (output : Option Path) (dryRun : Bool)
  /-- Compile and write nothing. -/
  | check (sources : Sources)
  /-- Print the handlers. -/
  | actions (sources : Sources)
  /-- Print completions for a shell. -/
  | completions (shell : Shell)
  /-- Print how to use the program. -/
  | help
  /-- Print the version of the program. -/
  | version
  deriving DecidableEq, Inhabited

structure OptionSpec where
  /-- The name behind two dashes. -/
  long : String
  /-- The letter behind one dash. -/
  short : Option Char := none
  takesValue : Bool := true
  deriving DecidableEq, Inhabited

structure Found where
  /-- Options with their values; those that take none have an empty one. -/
  options : List (String × String) := []
  positional : Option String := none
  deriving DecidableEq, Inhabited

inductive Stop where
  | help
  | mistake
  deriving DecidableEq, Inhabited

def Found.value? (found : Found) (name : String) : Option Path :=
  (found.options.lookup name).map Path.mk

def Found.has (found : Found) (name : String) : Bool :=
  (found.options.lookup name).isSome

/-- Notes an option; no option may be given twice. -/
def Found.note (found : Found) (name value : String) : Except Stop Found :=
  if found.has name then .error .mistake
  else .ok { found with options := found.options ++ [(name, value)] }

def Found.noteValue (found : Found) (name value : String) : Except Stop Found :=
  if value.isEmpty then .error .mistake else found.note name value

/-- An argument that is an option and no value: it starts with a dash and goes on. -/
def looksLikeOption (argument : String) : Bool :=
  match argument.toList with
  | '-' :: _ :: _ => true
  | _ => false

inductive Argument where
  /-- An option behind two dashes, with what follows an equals sign. -/
  | long (name : String) (attached : Option String)
  /-- An option behind one dash, with what follows its letter. -/
  | short (letter : Char) (attached : String)
  /-- Two dashes: no options follow. -/
  | terminator
  /-- Anything else. -/
  | plain

def Argument.of (argument : String) : Argument :=
  match argument.toList with
  | ['-', '-'] => .terminator
  | '-' :: '-' :: rest =>
      let name := String.ofList (rest.takeWhile (· != '='))
      match rest.dropWhile (· != '=') with
      | _ :: value => .long name (some (String.ofList value))
      | [] => .long name none
  | '-' :: letter :: rest => .short letter (String.ofList rest)
  | _ => .plain

/-- An equals sign in front of the value of a short option does not belong to it. -/
def withoutEquals (s : String) : String :=
  match s.toList with
  | '=' :: rest => String.ofList rest
  | _ => s

/-- Reads the arguments of a subcommand. `accepts` says which positional argument is taken; at most
one is. `optionsAllowed` is false behind two dashes, and `wanting` names the option whose value
comes next. -/
def readArguments (specs : List OptionSpec) (accepts : String → Bool) (optionsAllowed : Bool)
    (wanting : Option String) (found : Found) : List String → Except Stop Found
  | [] => if wanting.isSome then .error .mistake else .ok found
  | argument :: rest =>
      match wanting with
      | some name =>
          if looksLikeOption argument then .error .mistake
          else do
            let found ← found.noteValue name argument
            readArguments specs accepts optionsAllowed none found rest
      | none =>
          let kind := if optionsAllowed then Argument.of argument else .plain
          match kind with
          | .terminator => readArguments specs accepts false none found rest
          | .long name attached =>
              if name = "help" then .error (if attached.isNone then .help else .mistake)
              else
                match specs.find? fun spec => spec.long = name, attached with
                | none, _ => .error .mistake
                | some spec, some value => do
                    if !spec.takesValue then throw .mistake
                    let found ← found.noteValue name value
                    readArguments specs accepts optionsAllowed none found rest
                | some spec, none => do
                    if spec.takesValue then
                      readArguments specs accepts optionsAllowed (some name) found rest
                    else
                      let found ← found.note name ""
                      readArguments specs accepts optionsAllowed none found rest
          | .short letter attached =>
              if letter = 'h' then .error .help
              else
                match specs.find? fun spec => spec.short = some letter with
                | none => .error .mistake
                | some spec =>
                    if attached.isEmpty then
                      readArguments specs accepts optionsAllowed (some spec.long) found rest
                    else do
                      let found ← found.noteValue spec.long (withoutEquals attached)
                      readArguments specs accepts optionsAllowed none found rest
          | .plain =>
              if found.positional.isNone && accepts argument then
                readArguments specs accepts optionsAllowed none
                  { found with positional := some argument } rest
              else .error .mistake

def configOption : OptionSpec := { long := "config", short := some 'c' }

def sourceOptions : List OptionSpec :=
  [configOption, { long := "ui" }, { long := "relation" }]

def Found.sources (found : Found) : Sources :=
  { config := (found.value? "config").getD defaultConfig
    ui := found.value? "ui"
    relation := found.value? "relation" }

/-- Reads the arguments of a subcommand and makes a request of them; none is a mistake. -/
def subcommand (specs : List OptionSpec) (accepts : String → Bool) (arguments : List String)
    (request : Found → Option Request) : Option Request :=
  match readArguments specs accepts true none {} arguments with
  | .ok found => request found
  | .error .help => some .help
  | .error .mistake => none

def subcommandNames : List String :=
  ["bake", "check", "actions", "completions", "help"]

def noPositional : String → Bool := fun _ => false

/-- The request that a command line makes; none if it is a mistake. -/
def Request.ofArguments? : List String → Option Request
  | [] => none
  | "bake" :: rest =>
      subcommand
        (sourceOptions ++ [{ long := "output", short := some 'o' },
          { long := "dry-run", takesValue := false }])
        noPositional rest
        fun found => some (.bake found.sources (found.value? "output") (found.has "dry-run"))
  | "check" :: rest =>
      subcommand sourceOptions noPositional rest fun found => some (.check found.sources)
  | "actions" :: rest =>
      subcommand [configOption, { long := "relation" }] noPositional rest fun found =>
        some (.actions found.sources)
  | "completions" :: rest =>
      subcommand [] (fun name => (Shell.ofName? name).isSome) rest fun found =>
        (found.positional.bind Shell.ofName?).map .completions
  | ["help"] => some .help
  | ["help", name] => if subcommandNames.contains name then some .help else none
  | first :: _ =>
      match Argument.of first with
      | .long "help" none => some .help
      | .long "version" none => some .version
      | .short 'h' _ => some .help
      | .short 'V' _ => some .version
      | _ => none

end GioForge.Command
