import StimOverlay.Qubit

/-! Overlays: what is drawn over the layers of a circuit, and the sheets it is drawn on. -/

namespace StimOverlay

open Numeric

structure Colour where
  red : Binary32
  green : Binary32
  blue : Binary32
  opacity : Binary32
deriving DecidableEq

namespace Colour

def components (c : Colour) : List Binary32 := [c.red, c.green, c.blue, c.opacity]

/-- The components with commas between them. -/
def text (c : Colour) : String := String.intercalate "," (c.components.map Binary.text)

end Colour

/-- A polygon over its corner qubits. It is written as a header directive and a body instruction; a
header that is missing from the source is made up. -/
structure Polygon where
  headerLine : Nat
  bodyLine : Nat
  madeUpHeader : Bool
  sheet : String
  stroke : Option String
  fill : Option String
  colour : Colour
  corners : List QubitId
deriving DecidableEq

/-- What is drawn over a layer. Every overlay keeps the line that declares it. -/
inductive Overlay where
  | sheet (line : Nat) (name : String) (z : Int)
  | connections (line : Nat) (sheet : String) (droop : Option Binary64)
      (edges : List (QubitId × QubitId))
  /-- A highlight of something other than a gate. -/
  | highlight (line : Nat) (target : String) (colour : Option String) (qubits : List QubitId)
  /-- A highlight of the gate on the following line. -/
  | gateHighlight (line : Nat) (gate : String) (targets : List QubitId) (colour : Option String)
  | polygon (polygon : Polygon)
deriving DecidableEq

namespace Overlay

def line : Overlay → Nat
  | sheet line .. => line
  | connections line .. => line
  | highlight line .. => line
  | gateHighlight line .. => line
  | polygon p => p.headerLine

/-- The name of the sheet that the overlay is drawn on. -/
def sheetName : Overlay → String
  | sheet _ name _ => name
  | connections _ name .. => name
  | highlight .. => defaultSheet
  | gateHighlight .. => defaultSheet
  | polygon p => p.sheet

/-- The qubits that the overlay refers to. -/
def qubits : Overlay → List QubitId
  | sheet .. => []
  | connections _ _ _ edges => edges.flatMap fun edge => [edge.1, edge.2]
  | highlight _ _ _ qubits => qubits
  | gateHighlight _ _ targets _ => targets
  | polygon p => p.corners

end Overlay

/-- Where an overlay is found: a layer, and a position in that layer's list. -/
structure OverlayRef where
  layer : Nat
  index : Nat
deriving DecidableEq

/-- A drawing surface. Sheets with a higher `z` lie on top. -/
structure Sheet where
  name : String
  z : Int
  overlays : List OverlayRef := []
deriving DecidableEq

end StimOverlay
