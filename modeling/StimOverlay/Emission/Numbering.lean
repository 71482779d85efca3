import StimOverlay.Circuit.Basic

/-! The numbers under which qubits are written out. Qubits are numbered by place: by their first
coordinate, then by their second, and by their own number where the coordinates do not decide. -/

namespace StimOverlay.Emission

open Numeric

/-- How much of a circuit is written: its operations and marks, or its sheets and polygons as well. -/
inductive Detail where
  | plain
  | annotated
deriving DecidableEq

/-- The order of two coordinates; not-a-number is as good as any number. -/
def compareCoordinates (x y : Binary64) : Ordering := (x.compare? y).getD .eq

/-- The order in which qubits are numbered. -/
def compareQubits (c : Circuit) (a b : QubitId) : Ordering :=
  (compareCoordinates (c.coordsOf a).x (c.coordsOf b).x).then
    ((compareCoordinates (c.coordsOf a).y (c.coordsOf b).y).then (compare a b))

/-- The qubits that are written, in ascending order of their own numbers. -/
def mentioned (c : Circuit) : Detail → List QubitId
  | .plain => c.activeQubits
  | .annotated => (Std.TreeSet.ofList (c.activeQubits ++ c.overlayQubits)).toList

/-- The qubits that are written, each at the position of the number that it is written under. -/
def numbered (c : Circuit) (d : Detail) : List QubitId :=
  (mentioned c d).mergeSort fun a b => (compareQubits c a b).isLE

/-- New numbers for qubits. -/
structure Numbering where
  numbers : Std.TreeMap QubitId Nat

namespace Numbering

/-- Numbers the qubits of a list by their positions. -/
def ofList (qubits : List QubitId) : Numbering := ⟨Std.TreeMap.ofList qubits.zipIdx⟩

/-- The new number of a qubit; one that has none keeps its own. -/
def number (n : Numbering) (q : QubitId) : Nat := n.numbers.getD q q

/-- The new numbers of a list of qubits, with blanks between them. -/
def text (n : Numbering) (qubits : List QubitId) : String :=
  String.intercalate " " (qubits.map fun q => toString (n.number q))

end Numbering

end StimOverlay.Emission
