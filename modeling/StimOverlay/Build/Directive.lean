import StimOverlay.Build.Anchor

/-! Applying directives. A directive acts at once, or waits as an anchor for the line after it. -/

namespace StimOverlay.Build

open Numeric

def QubitData.ofKeys (keys : Directive.Keys) : QubitData where
  sheet := keys.get? "SHEET"
  panelX := keys.getNumber? "X"
  panelY := keys.getNumber? "Y"
  text := keys.get? "TEXT"
  mouseover := keys.get? "MOUSEOVER"
  colour := (keys.get? "COLOUR").or (keys.get? "COLOR")
  defective := keys.isSet "DEFECTIVE"

/-- The range of the stacking order of sheets. -/
def leastZ : Int := -2147483648

def greatestZ : Int := 2147483647

/-- The target of a highlight that names none. -/
def gateTarget : String := "GATE"

namespace State

def requireSheet (s : State) (line : Nat) (name : String) : Step Unit :=
  if (s.circuit.sheet? name).isSome then .ok () else s.halt line (.sheetMissing name)

/-- Declares a sheet, which has to come before any instruction. -/
def declareSheet (s : State) (line : Nat) (keys : Directive.Keys) : Step State :=
  match keys.get? "NAME" with
  | none => s.halt line .sheetUnnamed
  | some name =>
      if s.contentSeen then s.halt line .sheetNotAtTop
      else if (s.circuit.sheet? name).isSome then s.halt line (.sheetDeclaredTwice name)
      else
        let z := ((keys.getNumber? "Z").map (Binary.toInt leastZ greatestZ)).getD 0
        let s := { s with circuit := s.circuit.addSheet { name, z } }
        .ok (s.draw (.sheet line name z))

/-- Describes the qubit that is named, or else waits for a coordinate declaration. -/
def applyQubit (s : State) (line : Nat) (keys : Directive.Keys) : Step State := do
  let data := QubitData.ofKeys keys
  if let some sheet := data.sheet then
    s.requireSheet line sheet
  if keys.contains "Q" then
    let value := (keys.get? "Q").getD ""
    match readNat? (maxQubitId + 1) value.toList with
    | some q => .ok (s.describe q data)
    | none => s.halt line (.qubitInvalid value)
  else .ok { s with anchor := .coordinates line data }

def applyConnections (s : State) (line : Nat) (keys : Directive.Keys) : Step State := do
  let sheet := (keys.get? "SHEET").getD defaultSheet
  s.requireSheet line sheet
  let edges := ((keys.get? "EDGES").map fun v => Directive.readEdges v.toList).getD []
  .ok (s.draw (.connections line sheet (keys.getNumber? "DROOP") edges))

/-- Highlights something, or waits for the gate to highlight. -/
def applyHighlight (s : State) (line : Nat) (keys : Directive.Keys) : State :=
  let named := (keys.get? "TARGET").map fun v => String.ofList (v.toList.map Char.toUpper)
  let target := (named.or keys.words.head?).getD gateTarget
  let colour := (keys.get? "COLOR").or (keys.get? "COLOUR")
  let qubits := ((keys.get? "QUBITS").map fun v => Directive.readIds v.toList).getD []
  if target = gateTarget then { s with anchor := .gate line colour qubits }
  else s.draw (.highlight line target colour qubits)

/-- Waits for the polygon that the header belongs to. -/
def applyPolygon (s : State) (line : Nat) (keys : Directive.Keys) : Step State := do
  let sheet := (keys.get? "SHEET").getD defaultSheet
  s.requireSheet line sheet
  let style : PolygonStyle :=
    { sheet, stroke := keys.get? "STROKE", fill := keys.get? "FILL" }
  .ok { s with anchor := .polygon line style }

/-- Applies a directive; none is waiting any more. -/
def apply (s : State) (ctx : Context) (line : Nat) (d : Directive) : Step State :=
  match d.kind with
  | .sheet => s.declareSheet line d.keys
  | .qubit => s.applyQubit line d.keys
  | .connections => s.applyConnections line d.keys
  | .highlight => .ok (s.applyHighlight line d.keys)
  | .polygon => s.applyPolygon line d.keys
  | .unknown => s.judge line (.directiveUnknown d.body ctx.unknownDirective)

end State

end StimOverlay.Build
