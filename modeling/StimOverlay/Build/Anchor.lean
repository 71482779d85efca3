import StimOverlay.Build.State

/-! Anchored directives. Every line that counts resolves the directive waiting in front of it: a line
of the kind it waits for completes it, any other line is an error at the directive. -/

namespace StimOverlay.Build

open Numeric

/-- A polygon instruction with at least one corner. -/
structure PolygonBody where
  colour : Colour
  corners : List QubitId
deriving DecidableEq

/-- What a line turned out to be, as far as a waiting directive is concerned. -/
inductive Outcome where
  | declared (qubit : QubitId)
  /-- A gate was applied to `targets`, at last in the given layer. -/
  | applied (gate : String) (targets : List QubitId) (layer : Nat)
  /-- A polygon, without a body if no corners are left. -/
  | polygon (body : Option PolygonBody)
  | other
deriving DecidableEq

/-- The style of a polygon whose header is made up. -/
def MadeUpHeader.style (h : MadeUpHeader) : PolygonStyle where
  sheet := defaultSheet
  stroke := some "none"
  fill := some s!"({h.colour.text})"

/-- The directive that stands for the header. -/
def MadeUpHeader.text (h : MadeUpHeader) : String :=
  s!"##! POLY sheet={defaultSheet} stroke=none fill=({h.colour.text})"

namespace State

/-- Draws a polygon whose header is at `headerLine`. -/
def drawPolygon (s : State) (headerLine bodyLine : Nat) (madeUpHeader : Bool)
    (style : PolygonStyle) (body : PolygonBody) : State :=
  s.draw (.polygon {
    headerLine, bodyLine, madeUpHeader
    sheet := style.sheet
    stroke := style.stroke
    fill := style.fill
    colour := body.colour
    corners := body.corners })

/-- Draws a polygon without a header, which is made up once for each line. -/
def drawBarePolygon (s : State) (line : Nat) (body : PolygonBody) : State :=
  let header : MadeUpHeader := ⟨line, body.colour⟩
  let s := if s.headers.any (·.line == line) then s else { s with headers := s.headers.push header }
  s.drawPolygon line line true header.style body

/-- Gives the data of a directive to a qubit. -/
def describe (s : State) (q : QubitId) (d : QubitData) : State :=
  let update (qubit : Qubit) : Qubit :=
    { qubit.pin d.panelX d.panelY with
      sheet := d.sheet.getD qubit.sheet
      text := d.text.or qubit.text
      mouseover := d.mouseover.or qubit.mouseover
      colour := d.colour.or qubit.colour
      defective := qubit.defective || d.defective }
  { s with circuit := s.circuit.modifyQubit q update }

/-- Highlights an applied gate on its layer, with a warning if the highlight is meant for other
qubits. -/
def highlightGate (s : State) (line : Nat) (colour : Option String) (qubits : List QubitId)
    (gate : String) (targets : List QubitId) (layer : Nat) : State :=
  let s := if qubits.all targets.contains then s else s.report line (.highlightOutside gate)
  s.mapSchedule (·.modify layer (·.draw (.gateHighlight line gate targets colour)))

/-- Resolves the waiting directive against line `line`. -/
def resolve (s : State) (line : Nat) (o : Outcome) : Step State :=
  let s' := { s with anchor := .free }
  match s.anchor, o with
  | .free, .polygon (some body) => .ok (s'.drawBarePolygon line body)
  | .free, _ => .ok s'
  | .coordinates _ data, .declared q => .ok (s'.describe q data)
  | .coordinates start _, _ => s'.halt start .qubitUnanchored
  | .gate start colour qubits, .applied gate targets layer =>
      .ok (s'.highlightGate start colour qubits gate targets layer)
  | .gate start .., _ => s'.halt start .highlightUnanchored
  | .polygon start style, .polygon (some body) => .ok (s'.drawPolygon start line false style body)
  | .polygon .., .polygon none => .ok s'
  | .polygon start _, _ => s'.halt start .polygonUnanchored

end State

end StimOverlay.Build
