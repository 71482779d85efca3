import StimOverlay.Build.Anchor

/-! Applying gates and Pauli products to the targets of an instruction. An instruction stands for one
operation after another: a gate takes its targets in chunks of its arity, a product those that
combiners join. -/

namespace StimOverlay.Build

open Numeric

/-- Splits off what completes a chunk that has room for `room` more, and cuts the rest into chunks of
`size`. -/
def chunksAfter (size : Nat) : Nat → List α → List α × List (List α)
  | _, [] => ([], [])
  | 0, a :: rest =>
      let (chunk, more) := chunksAfter size (size - 1) rest
      ([], (a :: chunk) :: more)
  | room + 1, a :: rest =>
      let (chunk, more) := chunksAfter size room rest
      (a :: chunk, more)

/-- Cuts a list into chunks of `size`, the last one of which may be shorter. -/
def chunks (size : Nat) (l : List α) : List (List α) := (chunksAfter size 0 l).2

theorem chunksAfter_flatten (size room : Nat) (l : List α) :
    (chunksAfter size room l).1 ++ (chunksAfter size room l).2.flatten = l := by
  induction l generalizing room with
  | nil => cases room <;> rfl
  | cons a rest ih =>
      cases room with
      | zero => simpa [chunksAfter] using ih (size - 1)
      | succ room => simpa [chunksAfter] using ih room

theorem flatten_chunks (size : Nat) (l : List α) : (chunks size l).flatten = l := by
  have h := chunksAfter_flatten size 0 l
  cases l with
  | nil => rfl
  | cons a rest => simpa [chunksAfter, chunks] using h

/-- A product of Paulis, each on a qubit of its own. -/
abbrev Factors := List (Pauli × QubitId)

/-- The products in a target list, given whether its first Pauli target continues a product: the
factors that do, and the products after them. The targets up to the first one that is neither Pauli
nor combiner count; that one is given too. -/
def productsAfter (joined : Bool) : List Target → Factors × List Factors × Option Target
  | [] => ([], [], none)
  | .pauli basis q _ :: rest =>
      let (factors, more, bad) := productsAfter false rest
      if joined then ((basis, q) :: factors, more, bad)
      else ([], ((basis, q) :: factors) :: more, bad)
  | .combiner :: rest => productsAfter true rest
  | t :: _ => ([], [], some t)

/-- Whether a target cannot be used with a plain gate, and why. -/
def gateFault? (gate : Gate) (i : Instruction) : Target → Option InstructionFault
  | .combiner => some (.misplacedCombiner i.targetsText)
  | t@(.pauli ..) => some (.badTarget t.text)
  | t@(.qubit _ true) => if gate.isMeasurement then none else some (.badTarget t.text)
  | _ => none

/-- The arguments that an operation keeps; those of measurements are dropped. -/
def keptArgs (measures : Bool) (i : Instruction) : List Binary32 :=
  if measures then [] else i.args.map (Binary.convert .binary32)

namespace State

/-- Applies a product with the given factors. -/
def applyProduct (s : State) (line : Nat) (i : Instruction) (factors : Factors) : Step State :=
  let gate := Gate.product i.name (factors.map (·.1))
  let args := keptArgs (i.name == Gate.measuringFamily) i
  match Operation.make gate i.tag args (factors.map (·.2)) line with
  | .error e => s.halt line (.repeatedQubit e)
  | .ok op => .ok (s.place op)

def applyProducts (s : State) (line : Nat) (i : Instruction) : List Factors → Step State
  | [] => .ok s
  | factors :: rest => do
      let s ← s.applyProduct line i factors
      s.applyProducts line i rest

/-- Applies the products of an instruction. -/
def buildProducts (s : State) (line : Nat) (i : Instruction) : Step (Outcome × State) := do
  let (_, products, bad) := productsAfter false i.targets
  match bad with
  | some t => s.halt line (.instruction (.badTarget t.text))
  | none =>
      let s ← s.applyProducts line i products
      .ok (.applied i.name (products.flatMap (·.map (·.2))) s.layer, s)

/-- Marks the qubit of a classically controlled pair and warns that the control is ignored. -/
def markFeedback (s : State) (ctx : Context) (line : Nat) (gate : Gate) (pair : List Target)
    (q : QubitId) : State :=
  let s := match ctx.catalog.gate? "ERR" with
    | none => s
    | some err => s.mapSchedule (·.modifyCurrent (·.mark (.onQubit err "" [] q line)))
  s.report line (.feedback (String.intercalate " " (gate.name :: pair.map Target.text)))

/-- Applies a gate to one chunk of targets, and gives the qubits that it touched. A chunk with a
classical target has to be a pair with a qubit. -/
def applyChunk (s : State) (ctx : Context) (line : Nat) (i : Instruction) (gate : Gate)
    (chunk : List Target) : Step (List QubitId × State) :=
  match chunk.find? Target.isClassical with
  | some control =>
      match max gate.arity 1, chunk.findSome? Target.qubit? with
      | 2, some q => .ok ([], s.markFeedback ctx line gate chunk q)
      | _, _ => s.halt line (.instruction (.badTarget control.text))
  | none =>
      let args := keptArgs gate.isMeasurement i
      match Operation.make gate i.tag args (chunk.filterMap Target.qubit?) line with
      | .error e => s.halt line (.repeatedQubit e)
      | .ok op => .ok (op.targets, s.place op)

def applyChunks (s : State) (ctx : Context) (line : Nat) (i : Instruction) (gate : Gate) :
    List (List Target) → Step (List QubitId × State)
  | [] => .ok ([], s)
  | chunk :: rest => do
      let (touched, s) ← s.applyChunk ctx line i gate chunk
      let (more, s) ← s.applyChunks ctx line i gate rest
      .ok (touched ++ more, s)

/-- The pair in the opposite order, if the name of the gate stands for that. -/
def orient (swapped : Bool) : List Target → List Target
  | [a, b] => if swapped then [b, a] else [a, b]
  | chunk => chunk

/-- Applies a gate to the targets of an instruction. All targets are checked before the first chunk is
built. -/
def buildGate (s : State) (ctx : Context) (line : Nat) (i : Instruction) (gate : Gate)
    (swapped : Bool) : Step (Outcome × State) :=
  match i.targets.findSome? (gateFault? gate i) with
  | some fault => s.halt line (.instruction fault)
  | none =>
      let arity := max gate.arity 1
      if i.targets.length % arity ≠ 0 then
        s.halt line (.targetCount gate.name gate.arity i.targets.length)
      else do
        let (touched, s) ← s.applyChunks ctx line i gate ((chunks arity i.targets).map (orient swapped))
        .ok (if touched.isEmpty then .other else .applied gate.name touched s.layer, s)

end State

end StimOverlay.Build
