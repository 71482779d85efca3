import StimOverlay.Gate.Basic

/-! Targets of instructions. -/

namespace StimOverlay

inductive Target where
  | qubit (id : QubitId) (inverted : Bool)
  | pauli (basis : Pauli) (id : QubitId) (inverted : Bool)
  /-- A measurement, counted from the end of the record. -/
  | record (offset : Int)
  | sweep (index : Nat)
  /-- The `*` that joins two Pauli targets. -/
  | combiner
deriving DecidableEq

namespace Target

/-- A measurement record or a sweep bit. -/
def isClassical : Target → Bool
  | record _ => true
  | sweep _ => true
  | _ => false

def qubit? : Target → Option QubitId
  | qubit id _ => some id
  | pauli _ id _ => some id
  | _ => none

def text : Target → String
  | qubit id inverted => (if inverted then "!" else "") ++ toString id
  | pauli basis id inverted =>
      (if inverted then "!" else "") ++ String.singleton basis.letter ++ toString id
  | record offset => s!"rec[{offset}]"
  | sweep index => s!"sweep[{index}]"
  | combiner => "*"

end Target

end StimOverlay
