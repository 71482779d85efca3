import StimOverlay.Gate.Basic
import StimOverlay.Numeric.Arithmetic
import StimOverlay.Numeric.Total

/-! Operations: one gate applied to distinct qubits, as written on one source line. Operations that
agree in everything but the line are the same action. -/

namespace StimOverlay

open Numeric

/-- A tag as it is written between brackets: the characters that would end or break it are escaped
with a backslash. -/
def escapeTag (tag : List Char) : List Char :=
  tag.flatMap fun c =>
    if c == '\\' then ['\\', 'B']
    else if c == ']' then ['\\', 'C']
    else if c == '\r' then ['\\', 'r']
    else if c == '\n' then ['\\', 'n']
    else [c]

structure Operation where
  gate : Gate
  tag : String
  args : List Binary32
  targets : List QubitId
  line : Nat
  distinct : targets.Nodup
deriving DecidableEq

namespace Operation

/-- The first qubit of the list that occurs among `seen` or earlier in the list. -/
def firstRepeat? (seen : List QubitId) : List QubitId → Option QubitId
  | [] => none
  | q :: rest => if seen.contains q then some q else firstRepeat? (q :: seen) rest

/-- The operation on the given targets, unless they repeat a qubit. -/
def make (gate : Gate) (tag : String) (args : List Binary32) (targets : List QubitId)
    (line : Nat) : Except CircuitError Operation :=
  if distinct : targets.Nodup then .ok { gate, tag, args, targets, line, distinct }
  else .error (.duplicateQubit ((firstRepeat? [] targets).getD 0) gate.name)

/-- The operation on a single qubit. -/
def onQubit (gate : Gate) (tag : String) (args : List Binary32) (q : QubitId) (line : Nat) :
    Operation where
  gate
  tag
  args
  targets := [q]
  line
  distinct := List.nodup_cons.2 ⟨List.not_mem_nil, List.nodup_nil⟩

def isMeasurement (op : Operation) : Bool := op.gate.isMeasurement

/-- How many measurements the operation adds to the record. -/
def measurements (op : Operation) : Nat := if op.isMeasurement then 1 else 0

/-- The name, tag and arguments as written in front of targets. Products go by their family, so that
one line can hold several. -/
def heading (op : Operation) : String :=
  let name := if op.gate.bases?.isSome then op.gate.family else op.gate.name
  let tag := if op.tag.isEmpty then "" else "[" ++ String.ofList (escapeTag op.tag.toList) ++ "]"
  let args := if op.args.isEmpty then ""
    else "(" ++ String.intercalate ", " (op.args.map Binary.text) ++ ")"
  name ++ tag ++ args

/-- Numeric equality of arguments: both zeros are equal. -/
def sameArgs : List Binary32 → List Binary32 → Bool
  | [], [] => true
  | a :: as, b :: bs => a.same b && sameArgs as bs
  | _, _ => false

/-- Whether two operations have the same gate, tag, arguments and targets. -/
def sameAction (a b : Operation) : Bool :=
  a.gate.name == b.gate.name && a.tag == b.tag && sameArgs a.args b.args && a.targets == b.targets

end Operation

end StimOverlay
