import StimOverlay.Instruction.Basic

/-! Diagnostics: what is wrong at which line. Every problem has a stable code, a severity and a
message; an error ends the reading of a circuit, a warning does not. -/

namespace StimOverlay

open Numeric

inductive Severity where
  | error
  | warning
deriving DecidableEq

def Severity.text : Severity → String
  | error => "error"
  | warning => "warning"

inductive Problem where
  /-- A sheet is declared behind other content. -/
  | sheetNotAtTop
  | sheetDeclaredTwice (name : String)
  | sheetMissing (name : String)
  | sheetUnnamed
  /-- Qubit data without a qubit is not followed by a coordinate declaration. -/
  | qubitUnanchored
  /-- Qubit data is followed by a coordinate declaration of other than one qubit. -/
  | qubitTargetCount
  | qubitInvalid (value : String)
  /-- A gate highlight is not followed by a gate. -/
  | highlightUnanchored
  /-- A gate highlight names qubits that the gate does not touch. -/
  | highlightOutside (gate : String)
  /-- A polygon header is not followed by a polygon. -/
  | polygonUnanchored
  | polygonInvalid
  /-- An unknown directive, as serious as the options say. -/
  | directiveUnknown (body : String) (severity : Severity)
  | coordinateTargets (line : String)
  | coordinatesTaken (place : Point)
  /-- A gate controlled by a measurement or a sweep bit. -/
  | feedback (detail : String)
  | gateUnknown (line : String)
  | targetCount (gate : String) (arity count : Nat)
  | repeatedQubit (error : CircuitError)
  | instruction (fault : InstructionFault)
  /-- A detector or observable names something other than a measurement. -/
  | recordTarget (target : String)
  /-- A detector or observable reaches back before the first measurement. -/
  | recordRange (target : String) (available : Nat)
  | repeatUnopened
  | repeatUnclosed
  | repeatMalformed (line : String)
deriving DecidableEq

namespace Problem

def code : Problem → String
  | sheetNotAtTop => "SHEET001"
  | sheetDeclaredTwice _ => "SHEET002"
  | sheetMissing _ => "SHEET003"
  | sheetUnnamed => "SHEET004"
  | qubitUnanchored => "QU001"
  | qubitTargetCount => "QU001"
  | qubitInvalid _ => "QU002"
  | highlightUnanchored => "HL001"
  | highlightOutside _ => "HL002"
  | polygonUnanchored => "POLY001"
  | polygonInvalid => "POLY002"
  | directiveUnknown .. => "ANNOTATION001"
  | coordinatesTaken _ => "COORD002"
  | coordinateTargets _ => "COORD003"
  | feedback _ => "FEED001"
  | gateUnknown _ => "GATE001"
  | targetCount .. => "GATE002"
  | repeatedQubit _ => "GATE003"
  | instruction (.unrecognized _) => "PAR003"
  | instruction (.badTag _) => "PAR003"
  | instruction (.badArgument _) => "PAR005"
  | instruction (.badTarget _) => "PAR006"
  | instruction (.misplacedCombiner _) => "PAR007"
  | recordTarget _ => "DET001"
  | recordRange .. => "DET002"
  | repeatUnopened => "REP001"
  | repeatUnclosed => "REP002"
  | repeatMalformed _ => "REP003"

def severity : Problem → Severity
  | directiveUnknown _ severity => severity
  | highlightOutside _ => .warning
  | feedback _ => .warning
  | gateUnknown _ => .warning
  | recordTarget _ => .warning
  | recordRange .. => .warning
  | _ => .error

def message : Problem → String
  | sheetNotAtTop => "##! SHEET must appear at the top of the file before any other content."
  | sheetDeclaredTwice name => s!"Sheet {name} declared twice (note DEFAULT exists by default)."
  | sheetMissing name => s!"No such sheet {name}."
  | sheetUnnamed => "##! SHEET requires NAME=."
  | qubitUnanchored => "QUBIT without Q= must attach to next QUBIT_COORDS."
  | qubitTargetCount => "QUBIT anchor expected exactly one QUBIT_COORDS target."
  | qubitInvalid value => s!"QUBIT Q={value} is not a qubit id."
  | highlightUnanchored => "HIGHLIGHT GATE had no gate to attach to."
  | highlightOutside gate =>
      s!"HIGHLIGHT GATE QUBITS filter is not a subset of the {gate} targets."
  | polygonUnanchored => "##! POLY must be immediately followed by \"#! pragma POLYGON\"."
  | polygonInvalid => "Invalid POLYGON body."
  | directiveUnknown body _ => s!"Unknown annotation command {body}"
  | coordinateTargets line => s!"QUBIT_COORDS command should take exactly one target: {line}"
  | coordinatesTaken place => s!"Attempted to reuse coordinates {place.x},{place.y}"
  | feedback detail => s!"Feedback isn't supported yet. Ignoring {detail}"
  | gateUnknown line => s!"Ignoring unrecognized instruction: {line}"
  | targetCount gate arity count =>
      s!"{gate} acts on {arity} qubits at a time, but got {count} targets."
  | repeatedQubit error => error.message
  | instruction fault => fault.message
  | recordTarget target =>
      s!"Expected a measurement record target like rec[-1], got {target}. Ignoring instruction."
  | recordRange target available =>
      s!"{target} refers past the start of the measurement record " ++
        s!"({available} measurements so far). Ignoring instruction."
  | repeatUnopened => "Unmatched \x7d"
  | repeatUnclosed => "Unclosed REPEAT block"
  | repeatMalformed line =>
      "Expected 'REPEAT <count> \x7b' with a positive count: " ++ line

end Problem

/-- A problem at a line, counted from one. -/
structure Diagnostic where
  line : Nat
  problem : Problem
deriving DecidableEq

namespace Diagnostic

def severity (d : Diagnostic) : Severity := d.problem.severity

def isError (d : Diagnostic) : Bool := d.severity = .error

def text (d : Diagnostic) : String :=
  s!"line {d.line}: {d.severity.text} [{d.problem.code}]: {d.problem.message}"

end Diagnostic

end StimOverlay
