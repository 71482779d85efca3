import StimOverlay.Document.Basic
import StimOverlay.Parse

/-! The parts of a circuit as documents. -/

namespace StimOverlay.Report

open Numeric Document

def roleName : Role → String
  | .unitary => "unitary"
  | .reset => "reset"
  | .measurement => "measurement"
  | .measureReset => "measure_reset"
  | .marker => "marker"

def gate (g : Gate) : Document :=
  .record [("name", .text g.name), ("num_qubits", natural g.arity),
    ("can_fuse", .boolean g.fusible), ("role", .text (roleName g.role))]

/-- An operation; an empty tag is left out. -/
def operation (op : Operation) : Document :=
  .record ([("gate", gate op.gate)] ++
    (if op.tag.isEmpty then [] else [("tag", .text op.tag)]) ++
    [("args", .list (op.args.map .single)), ("id_targets", naturals op.targets),
      ("line", natural op.line)])

def polygonEntries (p : Polygon) : List (String × Document) :=
  [("header_line", natural p.headerLine), ("body_line", natural p.bodyLine),
    ("synthesized_header", .boolean p.madeUpHeader), ("sheet", .text p.sheet)] ++
    optionalEntry "stroke" p.stroke ++ optionalEntry "fill" p.fill ++
    [("color", .list (p.colour.components.map .single)), ("targets", naturals p.corners)]

/-- An overlay, which starts with the name of its kind. -/
def overlay : Overlay → Document
  | .sheet line name z =>
      .record [("kind", .text "Sheet"), ("line", natural line), ("name", .text name),
        ("z", .integer z)]
  | .connections line sheet droop edges =>
      .record ([("kind", .text "ConnSet"), ("line", natural line), ("sheet", .text sheet)] ++
        (droop.toList.map fun d => ("droop", .double d)) ++
        [("edges", .list (edges.map fun edge => naturals [edge.1, edge.2]))])
  | .highlight line target colour qubits =>
      .record ([("kind", .text "Highlight"), ("line", natural line), ("target", .text target)] ++
        optionalEntry "color" colour ++ [("qubits", naturals qubits)])
  | .gateHighlight line gate targets colour =>
      .record ([("kind", .text "GateHighlight"), ("line", natural line), ("gate", .text gate),
        ("targets", naturals targets)] ++ optionalEntry "color" colour)
  | .polygon p => .record (("kind", .text "Polygon") :: polygonEntries p)

def layer (l : Layer) : Document :=
  .record [("operations", .list (l.operations.toList.map operation)),
    ("markers", .list (l.markers.toList.map operation)),
    ("annotations", .list (l.overlays.toList.map overlay))]

def coordinates (p : Point) : List Document := [.double p.x, .double p.y]

def sheet (s : Sheet) : Document :=
  .record [("name", .text s.name), ("z", .integer s.z),
    ("annotations", .list (s.overlays.map fun ref =>
      .record [("layer", natural ref.layer), ("index", natural ref.index)]))]

def qubit (q : Qubit) : Document :=
  .record ([("id", natural q.id), ("stim_x", .double q.stim.x), ("stim_y", .double q.stim.y),
    ("panel_x", .double q.panel.x), ("panel_y", .double q.panel.y), ("sheet", .text q.sheet)] ++
    optionalEntry "text" q.text ++ optionalEntry "mouseover" q.mouseover ++
    optionalEntry "colour" q.colour ++ [("defective", .boolean q.defective)])

def circuit (c : Circuit) : Document :=
  .record [("layers", .list (c.layers.map layer)),
    ("qubit_coords", .record (c.coords.toList.map fun entry =>
      (toString entry.1, .list (coordinates entry.2)))),
    ("qubit_coord_data", .list (c.packed.toList.flatMap coordinates)),
    ("sheets", .list (c.sheets.map sheet)),
    ("qubits", .list (c.qubits.toList.map qubit))]

def diagnostic (d : Diagnostic) : Document :=
  .record [("line", natural d.line), ("code", .text d.problem.code),
    ("severity", .text d.severity.text), ("message", .text d.problem.message)]

end StimOverlay.Report
