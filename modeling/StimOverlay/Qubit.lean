import StimOverlay.Numeric.Numeral

/-! Qubits, the places they are declared at, and how they are drawn. A qubit is named by a number;
its panel position follows the declared one on every axis that has not been pinned. -/

namespace StimOverlay

open Numeric

abbrev QubitId := Nat

/-- The greatest number that circuit text may name a qubit by. Qubits are stored densely, so the
numbers are kept well below the size of a word. -/
def maxQubitId : QubitId := 1048575

/-- The sheet that every circuit has. -/
def defaultSheet : String := "DEFAULT"

structure Point where
  x : Binary64
  y : Binary64
deriving DecidableEq, Inhabited

namespace Point

def origin : Point := ⟨.zero, .zero⟩

/-- The place of a point. Points that differ in the sign of a zero are at the same place. -/
def place (p : Point) : Point := ⟨p.x.unsignedZero, p.y.unsignedZero⟩

/-- The coordinates as they are written out, a zero without its sign. -/
def text (p : Point) : String := s!"{p.place.x}, {p.place.y}"

end Point

/-- A qubit with its declared coordinates, `stim`, and its display data. -/
structure Qubit where
  id : QubitId
  stim : Point := .origin
  panel : Point := .origin
  pinnedX : Bool := false
  pinnedY : Bool := false
  sheet : String := defaultSheet
  text : Option String := none
  mouseover : Option String := none
  colour : Option String := none
  defective : Bool := false

namespace Qubit

/-- Declares the coordinates; an axis of the panel that is not pinned moves along. -/
def moveTo (q : Qubit) (p : Point) : Qubit :=
  { q with
    stim := p
    panel := ⟨if q.pinnedX then q.panel.x else p.x, if q.pinnedY then q.panel.y else p.y⟩ }

/-- Pins the panel axes that are given. -/
def pin (q : Qubit) (x y : Option Binary64) : Qubit :=
  { q with
    panel := ⟨x.getD q.panel.x, y.getD q.panel.y⟩
    pinnedX := q.pinnedX || x.isSome
    pinnedY := q.pinnedY || y.isSome }

end Qubit

end StimOverlay
