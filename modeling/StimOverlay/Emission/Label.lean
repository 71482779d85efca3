import StimOverlay.Emission.Line
import StimOverlay.Numeric.Arithmetic

/-! Labels of detectors. A detector is labelled with the place of one of the qubits it compares, or
with the middle of all of them, and with the earliest time at which that label is new. -/

namespace StimOverlay.Emission

open Numeric

/-- The nearest multiple of one half, the greater one of two. -/
def roundToHalf (x : Binary64) : Binary64 :=
  (x * .ofNat .binary64 2 + .ofDecimal .binary64 false 5 (-1)).floor / .ofNat .binary64 2

/-- The mean of a list of coordinates, rounded to halves; zero for the empty list. -/
def middle (xs : List Binary64) : Binary64 :=
  if xs.isEmpty then .zero
  else roundToHalf (xs.foldl (· + ·) .zero / .ofNat .binary64 xs.length)

/-- The places that a detector on the given qubits may be labelled with. -/
def labelPlaces (c : Circuit) (qubits : List QubitId) : List Point :=
  let points := qubits.map c.coordsOf
  points ++ [⟨middle (points.map (·.x)), middle (points.map (·.y))⟩]

/-- The first new label at one of the places, at one of `tries` times from `time` on. -/
def firstFree (used : Std.TreeSet String) (places : List String) : Nat → Nat → Label
  | 0, time => ⟨places.headD "", time⟩
  | tries + 1, time =>
      match (places.map (⟨·, time⟩ : String → Label)).find? (!used.contains ·.text) with
      | some label => label
      | none => firstFree used places tries (time + 1)

/-- A label that is not used yet. Labels of different times differ, so one more try than there are used
labels is enough. -/
def freshLabel (used : Std.TreeSet String) (places : List Point) (time : Nat) : Label :=
  firstFree used (places.map Point.text) (used.size + 1) time

end StimOverlay.Emission
