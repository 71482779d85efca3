import StimOverlay.Qubit

/-! What can be wrong with a change to a circuit. -/

namespace StimOverlay

open Numeric

inductive CircuitError where
  /-- One operation names a qubit twice. -/
  | duplicateQubit (qubit : QubitId) (gate : String)
  | invalidPauli (basis : Char)
  /-- Another qubit is declared at the same place. -/
  | coordinatesTaken (place : Point) (owner : QubitId)
  | noSuchSheet (name : String)
deriving DecidableEq

def CircuitError.message : CircuitError → String
  | duplicateQubit qubit gate => s!"Duplicate qubit {qubit} in operation (gate: {gate})"
  | invalidPauli basis => s!"Invalid Pauli basis '{basis}'"
  | coordinatesTaken place owner =>
      s!"Coordinates ({place.x}, {place.y}) already belong to qubit {owner}"
  | noSuchSheet name => s!"No such sheet {name}"

end StimOverlay
