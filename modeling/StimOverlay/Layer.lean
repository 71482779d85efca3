import Std.Data.TreeMap
import StimOverlay.Operation
import StimOverlay.Overlay

/-! Layers: operations that happen together, with the marks and overlays of that moment. A layer
keeps an index from each qubit to the operation that claimed it first, by which it refuses an
operation on a busy qubit. Only repetitions of one and the same unitary or reset are stacked. -/

namespace StimOverlay

open Numeric

/-- A refused placement: the first target that is taken, and the operation itself. -/
structure Collision where
  qubit : QubitId
  operation : Operation

def Collision.message (c : Collision) : String :=
  s!"qubit {c.qubit} is already used by another operation in this layer"

structure Layer where
  operations : Array Operation := #[]
  /-- The position of the first operation on each qubit. -/
  claims : Std.TreeMap QubitId Nat := ∅
  markers : Array Operation := #[]
  overlays : Array Overlay := #[]

namespace Layer

def empty : Layer := {}

instance : Inhabited Layer := ⟨empty⟩

def isEmpty (l : Layer) : Bool :=
  l.operations.isEmpty && l.markers.isEmpty && l.overlays.isEmpty

/-- Claims every qubit of the list that is free for the operation at `position`. -/
def claim (claims : Std.TreeMap QubitId Nat) (position : Nat) (targets : List QubitId) :
    Std.TreeMap QubitId Nat :=
  targets.foldl (fun claims q => claims.insertIfNew q position) claims

/-- The operation that claimed `q`, if any did. -/
def operationAt? (l : Layer) (q : QubitId) : Option Operation :=
  l.claims[q]?.bind (l.operations[·]?)

/-- Whether `op` cannot join the operation that has claimed `q`. -/
def blocks (l : Layer) (op : Operation) (q : QubitId) : Bool :=
  match l.operationAt? q with
  | none => false
  | some holder => op.isMeasurement || !holder.sameAction op

/-- The first target of `op` that the layer cannot accept. -/
def collision? (l : Layer) (op : Operation) : Option QubitId := op.targets.find? (l.blocks op)

/-- Appends an operation and claims its targets. -/
def insert (l : Layer) (op : Operation) : Layer :=
  { l with
    claims := claim l.claims l.operations.size op.targets
    operations := l.operations.push op }

def mark (l : Layer) (op : Operation) : Layer := { l with markers := l.markers.push op }

def draw (l : Layer) (o : Overlay) : Layer := { l with overlays := l.overlays.push o }

/-- Places an operation. A marker always has room; any other operation needs its targets free or held
by the same action. -/
def put (l : Layer) (op : Operation) : Except Collision Layer :=
  if op.gate.isMarker then .ok (l.mark op)
  else match l.collision? op with
    | some qubit => .error ⟨qubit, op⟩
    | none => .ok (l.insert op)

/-- The layer that holds a single operation. -/
def startingWith (op : Operation) : Layer := empty.insert op

/-- Forgets the claims. -/
def forgetClaims (l : Layer) : Layer := { l with claims := ∅ }

/-- The claims of a list of operations, the first of which stands at `position`. -/
def claimsFrom (claims : Std.TreeMap QubitId Nat) (position : Nat) :
    List Operation → Std.TreeMap QubitId Nat
  | [] => claims
  | op :: rest => claimsFrom (claim claims position op.targets) (position + 1) rest

/-- Computes the claims anew from the operations. -/
def reindex (l : Layer) : Layer := { l with claims := claimsFrom ∅ 0 l.operations.toList }

/-- The operations, then the markers, in order of placement. -/
def operationsAndMarkers (l : Layer) : List Operation := l.operations.toList ++ l.markers.toList

def measurements (l : Layer) : Nat := total (l.operations.toList.map Operation.measurements)

/-- How many measurements are written with the layer, any measuring markers included. -/
def writtenMeasurements (l : Layer) : Nat :=
  total (l.operationsAndMarkers.map Operation.measurements)

/-- Groups operations under their headings; the headings ascend, and within a group the order is
kept. -/
def groupByHeading (ops : List Operation) : List (String × List Operation) :=
  let headed := ops.map fun op => (op.heading, op)
  let headings := (headed.map (·.1)).eraseDups.mergeSort (fun a b => (compare a b).isLE)
  headings.map fun h => (h, (headed.filter (·.1 == h)).map (·.2))

/-- The groups of a layer as it is written out: those of gates, then those of markers. -/
def groups (l : Layer) : List (String × List Operation) :=
  groupByHeading (l.operationsAndMarkers.filter (!·.gate.isMarker)) ++
    groupByHeading (l.operationsAndMarkers.filter (·.gate.isMarker))

end Layer

end StimOverlay
