import StimOverlay.Proofs.Run.ActSequence

/-! Moves of the tape. Of all that an instruction does, only its moves concern the operations and markers
of layers, the record and the count of detectors; this part of a state is its tape. The moves of an
instruction are read off it and off the length of the record, whatever else the state holds, and an
instruction that halts halfway has made the moves in front of its fault. -/

namespace StimOverlay

/-- The layer without anything drawn over it. -/
def Layer.bare (l : Layer) : Layer := { l with overlays := #[] }

namespace Build

open Numeric

inductive Move where
  | tick
  | place (op : Operation)
  /-- Marks the current layer where feedback acts. -/
  | mark (op : Operation)
  /-- Accepts a detector on the measurements with the given numbers in the record. -/
  | detector (tag : String) (line : Nat) (numbers : List Nat)
  | observable (index : Binary64) (tag : String) (line : Nat) (numbers : List Nat)

/-- The number in a record of `n` measurements that a target stands for. -/
def recordNumber? (n : Nat) : Target → Option Nat
  | .record offset =>
      if offset < 0 ∧ 0 ≤ (n : Int) + offset then some ((n : Int) + offset).toNat else none
  | _ => none

def recordNumbers? (n : Nat) : List Target → Option (List Nat)
  | [] => some []
  | t :: rest => (recordNumber? n t).bind fun k => (recordNumbers? n rest).map (k :: ·)

/-- The index of an observable, if it is a natural number. -/
def observableIndex? (i : Instruction) : Option Binary64 :=
  match i.args.head? with
  | none => some .zero
  | some v => if v.isWhole && v.compare? .zero != some .lt then some v else none

/-- What stands in front of the first fault. -/
def untilFault : List (Option α) → List α
  | some a :: rest => a :: untilFault rest
  | _ => []

def productMove? (line : Nat) (i : Instruction) (factors : Factors) : Option Move :=
  (Operation.make (Gate.product i.name (factors.map (·.1))) i.tag
    (keptArgs (i.name == Gate.measuringFamily) i) (factors.map (·.2)) line).toOption.map .place

/-- The moves of a Pauli product instruction. -/
def productMoves (line : Nat) (i : Instruction) : List Move :=
  match productsAfter false i.targets with
  | (_, products, none) => untilFault (products.map (productMove? line i))
  | (_, _, some _) => []

def chunkMoves? (ctx : Context) (line : Nat) (i : Instruction) (gate : Gate)
    (chunk : List Target) : Option (List Move) :=
  match chunk.find? Target.isClassical with
  | some _ =>
      if max gate.arity 1 = 2 then
        (chunk.findSome? Target.qubit?).map fun q =>
          (ctx.catalog.gate? "ERR").toList.map fun err => .mark (.onQubit err "" [] q line)
      else none
  | none =>
      (Operation.make gate i.tag (keptArgs gate.isMeasurement i) (chunk.filterMap Target.qubit?)
        line).toOption.map fun op => [.place op]

/-- The moves of an instruction for a gate of the catalog. -/
def gateMoves (ctx : Context) (line : Nat) (i : Instruction) (gate : Gate) (swapped : Bool) :
    List Move :=
  let arity := max gate.arity 1
  if (i.targets.findSome? (gateFault? gate i)).isSome ∨ i.targets.length % arity ≠ 0 then []
  else (untilFault (((chunks arity i.targets).map (State.orient swapped)).map
    (chunkMoves? ctx line i gate))).flatten

/-- The moves of an instruction that the catalog decides about. -/
def namedMoves (ctx : Context) (line : Nat) (i : Instruction) : List Move :=
  match ctx.catalog.alias? i.name with
  | some .ignored => []
  | some (.renamed canonical swapped) =>
      ((ctx.catalog.gate? canonical).map (gateMoves ctx line i · swapped)).getD []
  | none => ((ctx.catalog.gate? i.name).map (gateMoves ctx line i · false)).getD []

/-- The moves of a detector or an observable behind `n` measurements; one that names anything but
measurements of the record makes none. -/
def markerMoves (n line : Nat) (i : Instruction) : List Move :=
  match recordNumbers? n i.targets with
  | none => []
  | some numbers =>
      if i.name = detectorName then [.detector i.tag line numbers]
      else (observableIndex? i).toList.map (.observable · i.tag line numbers)

/-- The moves of an instruction behind `n` measurements. -/
def instructionMoves (ctx : Context) (n line : Nat) (i : Instruction) : List Move :=
  if i.name = tickName then [.tick]
  else if i.name = coordinatesName ∨ i.name = polygonName then []
  else if i.name = detectorName ∨ i.name = observableName then markerMoves n line i
  else if i.name ∈ Gate.productFamilies then productMoves line i
  else namedMoves ctx line i

namespace Act

/-- The instruction on the line of an act, with the number of the line. -/
def instruction? : Act → Option (Nat × Instruction)
  | .line number text =>
      let source := Text.trim text
      if State.isTrivia source ∨ Source.isDirective source then none
      else (Instruction.read source).toOption.map (number, ·)
  | _ => none

theorem instruction?_of_skipped {line : Nat} {text : List Char}
    (h : State.isTrivia (Text.trim text) ∨ Source.isDirective (Text.trim text)) :
    (Act.line line text).instruction? = none := if_pos h

theorem instruction?_of_content {line : Nat} {text : List Char}
    (h : ¬(State.isTrivia (Text.trim text) ∨ Source.isDirective (Text.trim text))) :
    (Act.line line text).instruction? = (Instruction.read (Text.trim text)).toOption.map (line, ·) :=
  if_neg h

def moves (ctx : Context) (n : Nat) (a : Act) : List Move :=
  match a.instruction? with
  | some (number, i) => instructionMoves ctx n number i
  | none => []

end Act

namespace Move

/-- Whether the move adds a measurement to the record. -/
def measures : Move → Bool
  | .place op => op.isMeasurement
  | _ => false

end Move

/-- The moves of acts behind `n` measurements. -/
def movesFrom (ctx : Context) (n : Nat) : List Act → List Move
  | [] => []
  | a :: rest => a.moves ctx n ++ movesFrom ctx (n + (a.moves ctx n).countP Move.measures) rest

/-- All moves of a list of acts, from the start of a run. -/
def moves (ctx : Context) (acts : List Act) : List Move := movesFrom ctx 0 acts

/-- The layers without their overlays, the record, and how many detectors have been accepted. -/
structure Tape where
  schedule : Schedule := .empty
  record : Array Site := #[]
  detectors : Nat := 0

namespace Tape

def place (t : Tape) (op : Operation) : Tape :=
  let schedule := t.schedule.place op
  { t with
    schedule
    record := match op.targets with
      | [] => t.record
      | q :: _ => if op.isMeasurement then t.record.push ⟨schedule.position, q⟩ else t.record }

/-- The markers for numbered measurements, each with the layer that it belongs to. -/
def marks (t : Tape) (gate : Option Gate) (tag : String) (index : Binary32) (line : Nat)
    (numbers : List Nat) : List (Nat × Operation) :=
  gate.toList.flatMap fun gate =>
    (numbers.filterMap (t.record[·]?)).map fun site =>
      (site.layer, .onQubit gate tag [index] site.qubit line)

def markAll (t : Tape) (marks : List (Nat × Operation)) : Tape :=
  { t with
    schedule := marks.foldl (fun s entry => s.modify entry.1 (·.mark entry.2)) t.schedule }

def move (ctx : Context) (t : Tape) : Move → Tape
  | .tick => { t with schedule := t.schedule.advance .empty }
  | .place op => t.place op
  | .mark op => { t with schedule := t.schedule.modifyCurrent (·.mark op) }
  | .detector tag line numbers =>
      { t.markAll (t.marks (ctx.catalog.gate? detectorName) tag (.ofNat .binary32 t.detectors)
          line numbers) with
        detectors := t.detectors + 1 }
  | .observable index tag line numbers =>
      t.markAll (t.marks (ctx.catalog.gate? observableName) tag (index.convert .binary32)
        line numbers)

/-- The tape behind a list of moves. -/
def after (ctx : Context) (ms : List Move) : Tape := ms.foldl (move ctx) {}

end Tape

def State.tape (s : State) : Tape := ⟨s.circuit.schedule.map Layer.bare, s.record, s.detectors⟩

end Build

end StimOverlay
