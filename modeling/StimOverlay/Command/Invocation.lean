import StimOverlay.Command.Argument
import StimOverlay.Config.Basic

/-! Invocations: what the program can be asked to do, and how that is said on the command line. -/

namespace StimOverlay.Command

/-- A command with its own parameters. An input is a file, or standard input when there is none. -/
inductive Task where
  /-- Report the diagnostics of a circuit. -/
  | check (input : Option String)
  /-- Write a circuit anew. -/
  | format (input output : Option String) (pragmas annotated : Bool)
  /-- Spell out the text of a circuit. -/
  | normalize (input output : Option String)
  /-- Report on a circuit. -/
  | inspect (input : Option String) (format : Option ReportFormat)
  /-- Put a circuit into a URL. -/
  | share (input base : Option String)
  /-- Get a circuit out of a URL. -/
  | receive (input : Option String)
  | version
deriving DecidableEq

structure Invocation where
  /-- The configuration file that is asked for. -/
  config : Option String
  task : Task
deriving DecidableEq

/-- The variable that names a configuration file when no argument does. -/
def configVariable : String := "SHATTER_CONFIG"

/-- Parameters that every command has. -/
def sharedParameters : List Parameter := [
  { name := "verbose", letter := some 'v', arity := .counter },
  { name := "config", arity := .value (!·.isEmpty) }]

def anyText : Arity := .value fun _ => true

def outputParameter : Parameter := { name := "output", letter := some 'o', arity := anyText }

/-- The commands: how the arguments of each are understood, and what they mean. -/
def commands : List (String × Grammar × (Given → Task)) :=
  let grammar (own : List Parameter) (operands : Nat) : Grammar :=
    { parameters := sharedParameters ++ own, operands := some operands }
  [("check", grammar [] 1, fun g => .check g.operands.head?),
    ("fmt",
      grammar [outputParameter, { name := "pragma", arity := .flag },
        { name := "annotated", arity := .flag }] 1,
      fun g => .format g.operands.head? (g.value? "output") (g.isSet "pragma")
        (g.isSet "annotated")),
    ("normalize", grammar [outputParameter] 1,
      fun g => .normalize g.operands.head? (g.value? "output")),
    ("inspect",
      grammar [{
        name := "format"
        letter := some 'f'
        arity := .value fun word => (ReportFormat.ofWord? word).isSome }] 1,
      fun g => .inspect g.operands.head? ((g.value? "format").bind ReportFormat.ofWord?)),
    ("url",
      grammar [{ name := "base", letter := some 'b', arity := anyText },
        { name := "decode", letter := some 'd', arity := .flag }] 1,
      fun g => if g.isSet "decode" then .receive g.operands.head?
        else .share g.operands.head? (g.value? "base")),
    ("version", grammar [] 0, fun _ => .version)]

/-- Arguments in front of the name of a command. -/
def rootGrammar : Grammar :=
  { parameters := sharedParameters, hasVersion := true, operands := none }

/-- Whether the words behind `help` name at most one command, which may be `help` itself. -/
def isHelpTopic : List String → Bool
  | [] => true
  | [name] => name = "help" || commands.any (·.1 == name)
  | _ => false

/-- The configuration file: the one named last, else the one that the variable names. A name must not be
empty, and the variable counts wherever an argument could stand and does not. -/
def chooseConfig (fallback : Option String) (outer inner : Option String) :
    Except Refusal (Option String) :=
  if fallback = some "" ∧ (outer.isNone ∨ inner.isNone) then .error .usage
  else .ok (inner.or (outer.or fallback))

namespace Invocation

/-- Reads the arguments of the program, `fallback` being the value of `configVariable`. -/
def read (fallback : Option String) (args : List String) : Except Refusal Invocation := do
  let (outer, rest) ← rootGrammar.read {} none args
  match rest with
  | [] => .error .usage
  | name :: args =>
      if name = "help" then .error (if isHelpTopic args then .help else .usage)
      else match commands.lookup name with
        | none => .error .usage
        | some (grammar, task) => do
            let (inner, _) ← grammar.read {} none args
            let config ← chooseConfig fallback (outer.value? "config") (inner.value? "config")
            .ok { config, task := task inner }

end Invocation

end StimOverlay.Command
