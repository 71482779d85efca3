import StimOverlay.Circuit.Basic

/-! Detectors and observables. Markers on a layer name the measurements of that layer that a detector
compares or an observable includes. Collecting them gives each measurement its number, in order of
placement or in the order in which layers are written out, and turns numbers into negative offsets
from the end of the record. -/

namespace StimOverlay

open Numeric

/-- A measurement of a layer: its number in the record, and the qubits it acts on. -/
structure Measured where
  number : Nat
  qubits : List QubitId

/-- The measurements that a detector compares, the most recent first, and the qubits they act on. -/
structure Detector where
  offsets : List Int
  qubits : List QubitId
deriving DecidableEq

/-- All detectors, by ascending offset, and all observables, by ascending index. -/
structure DetectorSummary where
  detectors : List Detector
  observables : List (Nat × List Int)
deriving DecidableEq

/-- The order in which the measurements of a layer are numbered. -/
inductive RecordOrder where
  | placement
  | output
deriving DecidableEq

/-- The greatest slot that a marker can name. -/
def maxSlot : Nat := 18446744073709551615

/-- The number of detectors or observables that an argument can tell apart as an index. -/
def indexModulus : Nat := 4294967296

def detectorName : String := "DETECTOR"

def observableName : String := "OBSERVABLE_INCLUDE"

namespace Layer

def inOrder (l : Layer) : RecordOrder → List Operation
  | .placement => l.operations.toList
  | .output => l.groups.flatMap (·.2)

/-- The measurements of a layer by their first target, numbered on from `start`. -/
def measured (l : Layer) (order : RecordOrder) (start : Nat) : Std.TreeMap QubitId Measured :=
  ((l.inOrder order).filter Operation.isMeasurement).foldl
    (fun found op => match op.targets with
      | [] => found
      | q :: _ => found.insert q ⟨start + found.size, op.targets⟩) ∅

end Layer

namespace Circuit

/-- Each layer of a list with its measurements, numbered on from `start`. -/
def measuredFrom (order : RecordOrder) (start : Nat) :
    List Layer → List (Layer × Std.TreeMap QubitId Measured)
  | [] => []
  | l :: rest =>
      let found := l.measured order start
      (l, found) :: measuredFrom order (start + found.size) rest

/-- A reference by a marker: the detector or observable it belongs to, and the measurement that it
names, if its layer has that one. -/
structure Reference where
  slot : Nat
  measured : Option Measured

/-- The references by the markers of the given name. -/
def references (name : String) (layers : List (Layer × Std.TreeMap QubitId Measured)) :
    List Reference :=
  layers.flatMap fun entry =>
    (entry.1.markers.toList.filter (·.gate.name == name)).map fun op =>
      ⟨(op.args.head?.map (Binary.nearestNat maxSlot)).getD 0,
        op.targets.head?.bind (entry.2[·]?)⟩

/-- Distinct offsets in descending order. -/
def descending (offsets : List Int) : List Int :=
  (offsets.mergeSort (fun a b => decide (b ≤ a))).eraseDups

/-- Measurements as offsets from the end of a record of `total`. -/
def offsets (total : Nat) (found : List Measured) : List Int :=
  descending (found.map fun m => (m.number : Int) - total)

/-- The measurements that references name, gathered by slot in ascending order. -/
def bySlot (refs : List Reference) : List (Nat × List Measured) :=
  (refs.foldl (fun (slots : Std.TreeMap Nat (List Measured)) r =>
    slots.insert r.slot (slots.getD r.slot [] ++ r.measured.toList)) ∅).toList

/-- Every detector that names a measurement, listed once by its offsets. -/
def distinctDetectors (total : Nat) (slots : List (Nat × List Measured)) : List Detector :=
  let named := slots.filterMap fun entry =>
    if entry.2.isEmpty then none
    else some { offsets := offsets total entry.2, qubits := entry.2.flatMap (·.qubits) }
  named.eraseDupsBy fun a b => a.offsets == b.offsets

/-- The detectors and observables of a circuit. -/
def detectors (c : Circuit) (order : RecordOrder) : DetectorSummary :=
  let layers := measuredFrom order 0 c.layers
  let recorded := total (layers.map (·.2.size))
  let observed := (references observableName layers).map fun r =>
    { r with slot := r.slot % indexModulus }
  { detectors := (distinctDetectors recorded (bySlot (references detectorName layers))).mergeSort
      (fun a b => decide (a.offsets.headD 0 ≤ b.offsets.headD 0))
    observables := (bySlot observed).map fun entry => (entry.1, offsets recorded entry.2) }

end Circuit

end StimOverlay
