import StimOverlay.Build.Directive
import StimOverlay.Build.Gates
import StimOverlay.Build.Record
import StimOverlay.Source.Normal

/-! Building one line: a directive, an instruction, or a line without any effect. -/

namespace StimOverlay.Build

open Numeric

def tickName : String := "TICK"

def coordinatesName : String := "QUBIT_COORDS"

def polygonName : String := "POLYGON"

/-- The body that the corners of a polygon make up. -/
def PolygonBody.ofCorners? (colour : Colour) (corners : List QubitId) : Option PolygonBody :=
  if corners.isEmpty then none else some { colour, corners }

/-- The corners among targets, combiners left out; other targets are no corners. -/
def corners? : List Target → Option (List QubitId)
  | [] => some []
  | .qubit q _ :: rest => (corners? rest).map (q :: ·)
  | .combiner :: rest => corners? rest
  | _ => none

namespace State

/-- Declares the coordinates of a qubit; missing ones are zero. -/
def buildCoordinates (s : State) (line : Nat) (source : List Char) (i : Instruction) :
    Step (Outcome × State) :=
  match i.targets with
  | [.qubit q _] =>
      let p : Point := ⟨i.args[0]?.getD .zero, i.args[1]?.getD .zero⟩
      match s.circuit.declare q p with
      | .ok c => .ok (.declared q, { s with circuit := c })
      | .error _ => s.halt line (.coordinatesTaken p)
  | _ => s.halt line (.coordinateTargets (String.ofList source))

/-- Reads a polygon, whose arguments are the four components of its colour. -/
def buildPolygon (s : State) (line : Nat) (i : Instruction) : Step (Outcome × State) :=
  match i.args.map (Binary.convert .binary32), corners? i.targets with
  | [r, g, b, a], some corners => .ok (.polygon (PolygonBody.ofCorners? ⟨r, g, b, a⟩ corners), s)
  | _, _ => s.halt line .polygonInvalid

/-- Builds an instruction that the catalog decides about. -/
def buildNamed (s : State) (ctx : Context) (line : Nat) (source : List Char) (i : Instruction) :
    Step (Outcome × State) :=
  let (canonical, swapped) := match ctx.catalog.alias? i.name with
    | some (.renamed canonical swapped) => (some canonical, swapped)
    | some .ignored => (none, false)
    | none => (some i.name, false)
  match canonical with
  | none => .ok (.other, s)
  | some name =>
      match ctx.catalog.gate? name with
      | some gate => s.buildGate ctx line i gate swapped
      | none => .ok (.other, s.report line (.gateUnknown (String.ofList source)))

/-- Builds an instruction. -/
def build (s : State) (ctx : Context) (line : Nat) (source : List Char) (i : Instruction) :
    Step (Outcome × State) :=
  if i.name = tickName then .ok (.other, s.mapSchedule (·.advance .empty))
  else if i.name = coordinatesName then s.buildCoordinates line source i
  else if i.name = polygonName then s.buildPolygon line i
  else if i.name = detectorName ∨ i.name = observableName then
    (s.buildMarker ctx line source i).map (.other, ·)
  else if i.name ∈ Gate.productFamilies then s.buildProducts line i
  else s.buildNamed ctx line source i

/-- Builds an instruction and resolves the directive that waits for it. Qubit data cannot be for a
coordinate declaration of other than one qubit, however that would go. -/
def buildInstruction (s : State) (ctx : Context) (line : Nat) (source : List Char)
    (i : Instruction) : Step State :=
  match s.anchor, decide (i.name = coordinatesName ∧ i.targets.length ≠ 1) with
  | .coordinates start _, true => { s with anchor := .free }.halt start .qubitTargetCount
  | _, _ => do
      let (outcome, s) ← s.build ctx line source i
      s.resolve line outcome

/-- Whether a line has no effect: it is blank, a comment or a control line. -/
def isTrivia (source : List Char) : Bool :=
  source.isEmpty || Source.isComment source ||
    (Text.startsWith source ['#', '!'] && !Source.isDirective source)

/-- Builds a line that is no part of the block structure. -/
def buildLine (s : State) (ctx : Context) (line : Nat) (text : List Char) : Step State :=
  let source := Text.trim text
  if isTrivia source then .ok s
  else if Source.isDirective source then do
    let s ← s.resolve line .other
    s.apply ctx line (Directive.read source)
  else match Instruction.read source with
    | .error fault => s.halt line (.instruction fault)
    | .ok i => { s with contentSeen := true }.buildInstruction ctx line source i

end State

end StimOverlay.Build
