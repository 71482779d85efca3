import StimOverlay.Circuit.Basic
import StimOverlay.Diagnostic
import StimOverlay.Directive.Basic
import StimOverlay.Gate.Catalog

/-! The state in which the lines of a circuit are built up: the circuit so far, the diagnostics, the
record of measurements, and the directive that waits for the line after it. The first error halts the
building and leaves the state it was raised in. -/

namespace StimOverlay.Build

open Numeric

/-- How input is judged: the gates that are known, and how serious unknown directives are. -/
structure Context where
  catalog : Catalog
  unknownDirective : Severity

/-- Where a measurement took place: a layer, and the first qubit it acts on. -/
structure Site where
  layer : Nat
  qubit : QubitId
deriving DecidableEq

/-- What a directive says about a qubit. -/
structure QubitData where
  sheet : Option String
  panelX : Option Binary64
  panelY : Option Binary64
  text : Option String
  mouseover : Option String
  colour : Option String
  defective : Bool
deriving DecidableEq

/-- What the header of a polygon says. -/
structure PolygonStyle where
  sheet : String
  stroke : Option String
  fill : Option String
deriving DecidableEq

/-- A directive that belongs to the next line that is not blank, a comment or a control line. -/
inductive Anchor where
  | free
  /-- Qubit data for the next coordinate declaration. -/
  | coordinates (line : Nat) (data : QubitData)
  /-- A highlight of the next gate, meant for the given qubits of it. -/
  | gate (line : Nat) (colour : Option String) (qubits : List QubitId)
  /-- A header for the next polygon. -/
  | polygon (line : Nat) (style : PolygonStyle)
deriving DecidableEq

/-- The header of a polygon that has none in the source, to be inserted in front of its line. -/
structure MadeUpHeader where
  line : Nat
  colour : Colour
deriving DecidableEq

structure State where
  circuit : Circuit := .empty
  diagnostics : Array Diagnostic := #[]
  anchor : Anchor := .free
  /-- Whether an instruction has been read, behind which no sheet can be declared. -/
  contentSeen : Bool := false
  /-- The site of every measurement, in the order of the record. -/
  record : Array Site := #[]
  /-- How many detectors have been accepted. -/
  detectors : Nat := 0
  headers : Array MadeUpHeader := #[]

/-- The state that the first error left behind. -/
structure Halted where
  state : State

abbrev Step := Except Halted

namespace State

def report (s : State) (line : Nat) (p : Problem) : State :=
  { s with diagnostics := s.diagnostics.push ⟨line, p⟩ }

def halt (s : State) (line : Nat) (p : Problem) : Step α := .error ⟨s.report line p⟩

/-- Reports a problem and goes on unless it is an error. -/
def judge (s : State) (line : Nat) (p : Problem) : Step State :=
  if p.severity = .error then s.halt line p else .ok (s.report line p)

/-- The position of the current layer. -/
def layer (s : State) : Nat := s.circuit.schedule.position

def mapSchedule (s : State) (f : Schedule → Schedule) : State :=
  { s with circuit := { s.circuit with schedule := f s.circuit.schedule } }

/-- Draws over the current layer. -/
def draw (s : State) (o : Overlay) : State := s.mapSchedule (·.modifyCurrent (·.draw o))

/-- Places an operation and records its measurement. -/
def place (s : State) (op : Operation) : State :=
  let placed := s.mapSchedule (·.place op)
  match op.targets with
  | [] => placed
  | q :: _ =>
      if op.isMeasurement then { placed with record := placed.record.push ⟨placed.layer, q⟩ }
      else placed

end State

end StimOverlay.Build
