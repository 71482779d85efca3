import StimOverlay.Circuit.Basic

/-! Completing a circuit once it is built: every qubit up to the greatest one mentioned gets
coordinates, empty layers at the end are dropped, and sheets learn which overlays are drawn on
them. -/

namespace StimOverlay.Circuit

open Numeric

/-- One more than the greatest qubit that is declared, described, acted on or drawn. -/
def extent (c : Circuit) : Nat :=
  (c.activeQubits ++ c.overlayQubits ++ c.coords.keys).foldl (fun n q => max n (q + 1))
    c.qubits.size

/-- The place with whole first coordinate `x` on the horizontal axis. -/
def axisPlace (x : Nat) : Point := ⟨.ofNat .binary64 x, .zero⟩

/-- The qubits below `n` that have no coordinates. -/
def undeclared (c : Circuit) (n : Nat) : List QubitId :=
  (List.range n).filter (!c.coords.contains ·)

/-- Whole numbers whose place on the axis is free, in ascending order: at least as many as asked for,
because each declared qubit takes one place at most. -/
def freePlaces (c : Circuit) (count : Nat) : List Nat :=
  let taken := c.coords.toList.map fun entry => entry.2.place
  let onAxis := taken.filter fun p => p.y.isZero
  (List.range (count + c.coords.size)).filter fun x => !onAxis.contains (axisPlace x)

/-- Gives every qubit below the extent coordinates, and lists all coordinates. A qubit without any
goes to the least free whole place on the axis. -/
def complete (c : Circuit) : Circuit :=
  let missing := c.undeclared c.extent
  let coords := (missing.zip (c.freePlaces missing.length)).foldl
    (fun coords entry => coords.insert entry.1 (axisPlace entry.2)) c.coords
  let c := { c with coords }.pack
  c.coords.toList.foldl (fun c entry => c.modifyQubit entry.1 (·.moveTo entry.2)) c

/-- The overlays of a circuit with their positions, in order. -/
def overlayRefs (c : Circuit) : List (OverlayRef × Overlay) :=
  c.layers.zipIdx.flatMap fun entry =>
    entry.1.overlays.toList.zipIdx.map fun o => (⟨entry.2, o.2⟩, o.1)

/-- Enters every overlay on the sheet that it is drawn on. -/
def registerOverlays (c : Circuit) : Circuit :=
  let refs := c.overlayRefs
  { c with sheets := c.sheets.map fun s =>
      { s with overlays :=
          s.overlays ++ (refs.filter (·.2.sheetName == s.name)).map (·.1) } }

def finish (c : Circuit) : Circuit :=
  let c := c.complete
  { c with schedule := c.schedule.trimEnd }.registerOverlays

end StimOverlay.Circuit
