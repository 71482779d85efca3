import StimOverlay.Instruction.Lexeme
import StimOverlay.Instruction.Tag
import StimOverlay.Text.Pieces

/-! Instructions: `NAME[tag](args) targets` on one line. -/

namespace StimOverlay

open Numeric

/-- Why a line is no instruction. -/
inductive InstructionFault where
  | unrecognized (line : List Char)
  | badTag (fault : Tag.Fault)
  | badArgument (text : String)
  | badTarget (text : String)
  /-- A combiner at either end of the targets, or next to another one. -/
  | misplacedCombiner (targets : String)
deriving DecidableEq

def InstructionFault.message : InstructionFault → String
  | unrecognized line => "Unrecognized syntax: " ++ String.ofList line
  | badTag fault => "Bad tag: " ++ fault.message
  | badArgument text => "Bad gate argument: " ++ text
  | badTarget text => "Bad target: " ++ text
  | misplacedCombiner targets => "Misplaced combiner '*' in: " ++ targets

structure Instruction where
  name : String
  tag : String
  args : List Binary64
  targets : List Target
deriving DecidableEq

namespace Instruction

/-- The targets with blanks between them. -/
def targetsText (i : Instruction) : String := String.intercalate " " (i.targets.map Target.text)

/-- The instruction without its tag. -/
def text (i : Instruction) : String :=
  let args := if i.args.isEmpty then ""
    else "(" ++ String.intercalate ", " (i.args.map Binary.text) ++ ")"
  let targets := if i.targets.isEmpty then "" else " " ++ i.targetsText
  i.name ++ args ++ targets

/-- Reads arguments, skipping empty ones; each has to be a finite number. -/
def readArgs : List (List Char) → Except InstructionFault (List Binary64)
  | [] => .ok []
  | part :: parts =>
      let numeral := Text.trim part
      if numeral.isEmpty then readArgs parts
      else match Binary.readFinite? .binary64 numeral with
        | none => .error (.badArgument (String.ofList numeral))
        | some a => (readArgs parts).map (a :: ·)

/-- Collects the targets among lexemes, up to the first fault. -/
def collectTargets : List Lexeme → Except InstructionFault (List Target)
  | [] => .ok []
  | .gap _ :: rest => collectTargets rest
  | .stray text :: _ => .error (.badTarget (String.ofList text))
  | .target t _ :: rest =>
      if t.qubit?.any (maxQubitId < ·) then
        .error (.badTarget s!"{t.text} (qubit ids stop at {maxQubitId})")
      else (collectTargets rest).map (t :: ·)

/-- Whether two neighbours are both combiners. -/
def hasDoubleCombiner : List Target → Bool
  | .combiner :: .combiner :: _ => true
  | _ :: rest => hasDoubleCombiner rest
  | [] => false

/-- Reads a target list, in which combiners stand between other targets only. -/
def readTargets (s : List Char) : Except InstructionFault (List Target) := do
  let targets ← collectTargets (Lexeme.scan s)
  if targets.head? = some .combiner || targets.getLast? = some .combiner ||
      hasDoubleCombiner targets then
    .error (.misplacedCombiner (String.ofList s))
  else .ok targets

def isName : List Char → Bool
  | [] => false
  | c :: rest => Text.isNameStart c && rest.all Text.isNameRest

/-- The tag at the start of a text, empty when there is none, and what follows it. -/
def readTag : List Char → Except InstructionFault (List Char × List Char)
  | '[' :: body => (Tag.read body).mapError .badTag
  | rest => .ok ([], rest)

/-- Reads what follows the name and the tag of `line` when comments are gone: the arguments, and the
text of the targets. Targets may follow a closing parenthesis directly, but not a name or a tag. -/
def readArguments (line rest : List Char) :
    Except InstructionFault (List Binary64 × List Char) :=
  match Text.trimStart rest with
  | '(' :: inner =>
      match Text.splitOnce? (· == ')') inner with
      | none => .error (.unrecognized line)
      | some (args, targets) =>
          (readArgs (Text.splitWhere (· == ',') args)).map fun args => (args, targets)
  | _ =>
      if rest.head?.all Text.isBlank then .ok ([], rest) else .error (.unrecognized line)

/-- Reads one line. Blanks around it and a comment at its end do not count; the name is
upper-cased. -/
def read (source : List Char) : Except InstructionFault Instruction :=
  let line := Text.trim source
  let name := line.takeWhile (!Text.endsName ·)
  if !isName name then .error (.unrecognized line)
  else do
    let (tag, rest) ← readTag (line.drop name.length)
    let (args, targets) ← readArguments line (Text.before (· == '#') rest)
    let targets ← readTargets (Text.trim targets)
    .ok { name := String.ofList (name.map Char.toUpper), tag := String.ofList tag, args, targets }

end Instruction

end StimOverlay
