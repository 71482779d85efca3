import StimOverlay.Circuit.Detectors
import StimOverlay.Document.Basic
import StimOverlay.Parse

/-! The summary of a parsed circuit: how much of everything there is. -/

namespace StimOverlay.Report

open Numeric Document

structure Summary where
  layers : Nat
  qubits : Nat
  operations : Nat
  measurements : Nat
  detectors : Nat
  observables : Nat
  sheets : List String
  polygons : Nat
  highlights : Nat
  connections : Nat
  errors : Nat
  warnings : Nat

def isPolygon : Overlay → Bool
  | .polygon _ => true
  | _ => false

def isHighlight : Overlay → Bool
  | .highlight .. => true
  | .gateHighlight .. => true
  | _ => false

def isConnections : Overlay → Bool
  | .connections .. => true
  | _ => false

namespace Summary

def ofParsed (p : Parsed) : Summary :=
  let c := p.circuit
  let detectors := c.detectors .placement
  let overlays := c.layers.flatMap (·.overlays.toList)
  let errors := p.diagnostics.countP Diagnostic.isError
  { layers := c.layers.length
    qubits := c.coords.size
    operations := total (c.layers.map (·.operations.size))
    measurements := c.measurements
    detectors := detectors.detectors.length
    observables := detectors.observables.length
    sheets := c.sheets.map (·.name)
    polygons := overlays.countP isPolygon
    highlights := overlays.countP isHighlight
    connections := overlays.countP isConnections
    errors
    warnings := p.diagnostics.length - errors }

def document (s : Summary) : Document :=
  .record [("layers", natural s.layers), ("qubits", natural s.qubits),
    ("operations", natural s.operations), ("measurements", natural s.measurements),
    ("detectors", natural s.detectors), ("observables", natural s.observables),
    ("sheets", .list (s.sheets.map .text)), ("polygons", natural s.polygons),
    ("highlights", natural s.highlights), ("connections", natural s.connections),
    ("errors", natural s.errors), ("warnings", natural s.warnings)]

/-- The summary in words, a line for each count. -/
def lines (name : String) (s : Summary) : List String := [
  s!"Circuit: {name}",
  s!"  Layers:       {s.layers}",
  s!"  Qubits:       {s.qubits}",
  s!"  Operations:   {s.operations}",
  s!"  Measurements: {s.measurements}",
  s!"  Detectors:    {s.detectors}",
  s!"  Observables:  {s.observables}",
  "  Sheets:       " ++ String.intercalate ", " s.sheets,
  s!"  Annotations:  {s.polygons} polygons, {s.highlights} highlights, {s.connections} connection sets"]

end Summary

end StimOverlay.Report
