import StimOverlay.CircuitError

/-! Gates. A gate is known by its name, how many qubits one operation of it acts on, whether
operations of one layer may share an output line, and its role. A Pauli product is a gate of its
own for every sequence of bases; its name is `family:bases`. -/

namespace StimOverlay

inductive Pauli where
  | x
  | y
  | z
deriving DecidableEq

namespace Pauli

def letter : Pauli → Char
  | x => 'X'
  | y => 'Y'
  | z => 'Z'

def ofLetter? (c : Char) : Option Pauli :=
  if c == 'X' then some x else if c == 'Y' then some y else if c == 'Z' then some z else none

end Pauli

/-- What a gate does to the measurement record and to the placement of its operations. -/
inductive Role where
  | unitary
  | reset
  /-- Adds one measurement to the record. -/
  | measurement
  /-- Adds one measurement to the record, then resets. -/
  | measureReset
  /-- Marks a layer without acting in it. -/
  | marker
deriving DecidableEq

structure Gate where
  name : String
  arity : Nat
  fusible : Bool
  role : Role
deriving DecidableEq

namespace Gate

/-- The families of Pauli products. -/
def productFamilies : List String := ["MPP", "SPP", "SPP_DAG"]

/-- The only family whose products measure. -/
def measuringFamily : String := "MPP"

/-- The gate of one product, such as `MPP:XYZ`. -/
def product (family : String) (bases : List Pauli) : Gate where
  name := family ++ ":" ++ String.ofList (bases.map Pauli.letter)
  arity := bases.length
  fusible := false
  role := if family = measuringFamily then .measurement else .unitary

/-- The gate of the product whose bases are written out. -/
def ofProduct (family : String) (bases : List Char) : Except CircuitError Gate :=
  match bases.find? fun c => (Pauli.ofLetter? c).isNone with
  | some c => .error (.invalidPauli c)
  | none => .ok (product family (bases.filterMap Pauli.ofLetter?))

/-- The name up to its first colon. -/
def family (g : Gate) : String := String.ofList (g.name.toList.takeWhile (· != ':'))

/-- The bases of a product, the part of the name behind the first colon. -/
def bases? (g : Gate) : Option (List Char) :=
  match g.name.toList.dropWhile (· != ':') with
  | [] => none
  | _ :: bases => some bases

def isMarker (g : Gate) : Bool := g.role = .marker

def isMeasurement (g : Gate) : Bool := g.role = .measurement || g.role = .measureReset

end Gate

end StimOverlay
