import StimOverlay.Text.Pieces

/-! Command-line arguments. An argument sets a parameter, by its long name or its letter, or is an
operand; behind `--` everything is an operand. A value stands in the same argument or in the next one,
and letters without values may share an argument. -/

namespace StimOverlay.Command

/-- How often a parameter may be given, and with what. -/
inductive Arity where
  /-- At most once, without a value. -/
  | flag
  /-- Any number of times, without a value. -/
  | counter
  /-- At most once, with a value that passes the test. -/
  | value (accepts : String → Bool)

structure Parameter where
  name : String
  letter : Option Char := none
  arity : Arity

def Parameter.takesValue (p : Parameter) : Bool :=
  match p.arity with
  | .value _ => true
  | _ => false

/-- Why no command is run. -/
inductive Refusal where
  /-- The arguments do not fit together. -/
  | usage
  /-- Help is asked for. -/
  | help
  /-- The version of the program is asked for. -/
  | version
deriving DecidableEq

/-- What the arguments of one command say, in order. -/
structure Given where
  settings : List (String × String) := []
  operands : List String := []

namespace Given

def isSet (g : Given) (name : String) : Bool := g.settings.any (·.1 == name)

def value? (g : Given) (name : String) : Option String := g.settings.lookup name

/-- Records a parameter that takes no value. -/
def setFlag (g : Given) (p : Parameter) : Except Refusal Given :=
  match p.arity with
  | .counter => .ok { g with settings := g.settings ++ [(p.name, "")] }
  | .flag =>
      if g.isSet p.name then .error .usage
      else .ok { g with settings := g.settings ++ [(p.name, "")] }
  | .value _ => .error .usage

/-- Records the value of a parameter. -/
def setValue (g : Given) (p : Parameter) (value : String) : Except Refusal Given :=
  match p.arity with
  | .value accepts =>
      if g.isSet p.name || !accepts value then .error .usage
      else .ok { g with settings := g.settings ++ [(p.name, value)] }
  | _ => .error .usage

end Given

/-- Whether an argument sets parameters. -/
def isOption (arg : String) : Bool :=
  match arg.toList with
  | ['-'] => false
  | '-' :: _ => true
  | _ => false

/-- How arguments are understood: the parameters there are, whether the version can be asked for, and
how many operands there may be; `none` stands for a command that ends at its first operand, the name
of another one. -/
structure Grammar where
  parameters : List Parameter
  hasVersion : Bool := false
  operands : Option Nat

namespace Grammar

def named? (gr : Grammar) (name : String) : Option Parameter :=
  gr.parameters.find? (·.name == name)

def lettered? (gr : Grammar) (letter : Char) : Option Parameter :=
  gr.parameters.find? (·.letter == some letter)

/-- Reads letters that share an argument. A letter that takes a value takes the rest, an equals sign
before it apart; if there is no rest, the value is still to come. -/
def readLetters (gr : Grammar) (g : Given) :
    List Char → Except Refusal (Given × Option Parameter)
  | [] => .ok (g, none)
  | c :: rest =>
      match gr.lettered? c with
      | none =>
          if c == 'h' then .error .help
          else if c == 'V' && gr.hasVersion then .error .version
          else .error .usage
      | some p =>
          if p.takesValue then
            match rest with
            | [] => .ok (g, some p)
            | '=' :: value => (g.setValue p (String.ofList value)).map (·, none)
            | value => (g.setValue p (String.ofList value)).map (·, none)
          else g.setFlag p >>= fun g => gr.readLetters g rest

/-- Reads a long name with the value behind an equals sign, if there is one; the value of a parameter
may also be still to come. -/
def readName (gr : Grammar) (g : Given) (name : String) (value : Option String) :
    Except Refusal (Given × Option Parameter) :=
  match gr.named? name, value with
  | none, none =>
      if name = "help" then .error .help
      else if name = "version" ∧ gr.hasVersion then .error .version
      else .error .usage
  | none, some _ => .error .usage
  | some p, some value => (g.setValue p value).map (·, none)
  | some p, none => if p.takesValue then .ok (g, some p) else (g.setFlag p).map (·, none)

/-- Reads an argument that sets parameters. -/
def readOption (gr : Grammar) (g : Given) (arg : List Char) :
    Except Refusal (Given × Option Parameter) :=
  match arg with
  | '-' :: '-' :: long =>
      match Text.splitOnce? (· == '=') long with
      | some (name, value) => gr.readName g (String.ofList name) (some (String.ofList value))
      | none => gr.readName g (String.ofList long) none
  | _ :: letters => gr.readLetters g letters
  | [] => .error .usage

/-- Records operands, of which there may not be too many. -/
def readOperands (gr : Grammar) (g : Given) (args : List String) : Except Refusal Given :=
  let operands := g.operands ++ args
  if gr.operands.any (operands.length ≤ ·) || args.isEmpty then .ok { g with operands }
  else .error .usage

/-- Reads arguments while `awaiting` still needs its value; gives what is left behind the first operand
of a command that ends there, with that operand. -/
def read (gr : Grammar) (g : Given) (awaiting : Option Parameter) :
    List String → Except Refusal (Given × List String)
  | [] => if awaiting.isSome then .error .usage else .ok (g, [])
  | arg :: rest =>
      match awaiting with
      | some p =>
          if isOption arg then .error .usage
          else g.setValue p arg >>= fun g => gr.read g none rest
      | none =>
          if arg = "--" then (gr.readOperands g rest).map (·, [])
          else if isOption arg then
            gr.readOption g arg.toList >>= fun (g, awaiting) => gr.read g awaiting rest
          else if gr.operands.isNone then .ok (g, arg :: rest)
          else gr.readOperands g [arg] >>= fun g => gr.read g none rest

end Grammar

end StimOverlay.Command
