import StimOverlay.Circuit.Detectors
import StimOverlay.Emission.Label
import StimOverlay.Source.Pragma

/-! The text of a circuit. Declarations come first, then layer by layer the operations under their
headings, with `TICK` between layers. A detector or an observable follows the layer by which all of
its measurements are written, and names them by their offsets from there. -/

namespace StimOverlay.Emission

/-- What is still to be written behind some layer. -/
structure Pending where
  /-- How many measurements of the record are still to come. -/
  measurements : Int
  /-- The time of the next layer's labels. -/
  time : Nat := 0
  labels : Std.TreeSet String := ∅
  detectors : List Detector
  observables : List (Nat × List Int)

namespace Pending

/-- Everything is still to be written. -/
def ofCircuit (c : Circuit) : Pending :=
  let summary := c.detectors .output
  { measurements := c.measurements
    detectors := summary.detectors
    observables := summary.observables }

/-- An offset from the end of the record, counted from the end of what is written of it. -/
def shift (p : Pending) (offset : Int) : Int := offset + p.measurements

/-- Whether all measurements of a descending list of offsets are written. -/
def isWritten (p : Pending) (offsets : List Int) : Bool := offsets.head?.any (p.shift · < 0)

/-- The measurements of a layer are written. -/
def advance (p : Pending) (l : Layer) : Pending :=
  { p with measurements := p.measurements - l.writtenMeasurements }

/-- Labels a detector at the given time or later. The next layer's labels are later still. -/
def labelDetector (c : Circuit) (time : Nat) (p : Pending) (d : Detector) : Line × Pending :=
  let label := freshLabel p.labels (labelPlaces c d.qubits) time
  (.detector label (d.offsets.map p.shift),
    { p with labels := p.labels.insert label.text, time := max p.time (label.time + 1) })

/-- Labels one detector after another. -/
def labelDetectors (c : Circuit) (time : Nat) : Pending → List Detector → List Line × Pending
  | p, [] => ([], p)
  | p, d :: rest =>
      let (line, p) := labelDetector c time p d
      let (lines, p) := labelDetectors c time p rest
      (line :: lines, p)

/-- Writes the detectors at the front of the list whose measurements are written. -/
def writeDetectors (c : Circuit) (p : Pending) : List Line × Pending :=
  let ready := p.detectors.takeWhile fun d => p.isWritten d.offsets
  labelDetectors c p.time { p with detectors := p.detectors.drop ready.length } ready

/-- Writes the observables whose measurements are written, or that have none. -/
def writeObservables (p : Pending) : List Line × Pending :=
  let isReady (entry : Nat × List Int) : Bool := entry.2.isEmpty || p.isWritten entry.2
  let lines := (p.observables.filter isReady).map fun entry =>
    Line.observable entry.1 (entry.2.map p.shift)
  (lines, { p with observables := p.observables.filter (!isReady ·) })

end Pending

/-- The lines of a group of operations. Detectors and observables are written elsewhere. -/
def groupLines (heading : String) (ops : List Operation) : List Line :=
  match ops with
  | [] => []
  | op :: _ =>
      if op.gate.name = detectorName ∨ op.gate.name = observableName then []
      else if op.gate.bases?.isSome then [.products heading ops]
      else if op.gate.fusible then [.operations heading ops]
      else ops.map fun op => .operations heading [op]

/-- A polygon as a header and a body; other overlays have no written form of their own. -/
def overlayLines : Overlay → List Line
  | .polygon p => [.polygonHeader p.sheet p.stroke p.fill, .polygonBody p.colour p.corners]
  | _ => []

/-- The polygons and the operations of a layer. -/
def layerLines (d : Detail) (l : Layer) : List Line :=
  (if d = .annotated then l.overlays.toList.flatMap overlayLines else []) ++
    l.groups.flatMap fun group => groupLines group.1 group.2

/-- The lines of the layers, each with what is ready behind it and a tick. -/
def bodyLines (c : Circuit) (d : Detail) : Pending → List Layer → List Line
  | _, [] => []
  | p, l :: rest =>
      let (detectors, p) := (p.advance l).writeDetectors c
      let (observables, p) := p.writeObservables
      layerLines d l ++ detectors ++ observables ++ .tick :: bodyLines c d p rest

/-- The sheets, except the one that needs no declaration, and the coordinates of all qubits. -/
def headerLines (c : Circuit) (d : Detail) : List Line :=
  (if d = .annotated then
    (c.sheets.filter (·.name != defaultSheet)).map fun s => .sheet s.name s.z
  else []) ++
    (numbered c d).map fun q => .coordinates (c.coordsOf q) q

/-- All lines, without ticks at the end. -/
def lines (c : Circuit) (d : Detail) : List Line :=
  let all := headerLines c d ++ bodyLines c d (.ofCircuit c) c.layers
  (all.reverse.dropWhile (· == .tick)).reverse

/-- The text with the given detail. -/
def text (c : Circuit) (d : Detail) : String :=
  let n := Numbering.ofList (numbered c d)
  String.intercalate "\n" ((lines c d).map (Line.text n))

end Emission

namespace Circuit

/-- The circuit as circuit text. -/
def stimText (c : Circuit) : String := Emission.text c .plain

/-- The circuit as circuit text with its sheets and polygons. -/
def annotatedText (c : Circuit) : String := Emission.text c .annotated

/-- The circuit as text in which what other readers do not know stands behind pragma markers. -/
def pragmaText (c : Circuit) : String :=
  String.ofList (Source.restorePragmas c.stimText.toList)

end Circuit

end StimOverlay
