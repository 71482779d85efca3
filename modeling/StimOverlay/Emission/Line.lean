import StimOverlay.Directive.Keys
import StimOverlay.Emission.Numbering

/-! Lines of written circuit text. A line names qubits by their own numbers; they get their new
numbers when the line is rendered. -/

namespace StimOverlay.Emission

open Numeric

/-- What a detector is written as: a place, already in text form, and a time. -/
structure Label where
  place : String
  time : Nat
deriving DecidableEq

def Label.text (l : Label) : String := s!"DETECTOR({l.place}, {l.time})"

inductive Line where
  | sheet (name : String) (z : Int)
  | coordinates (place : Point) (qubit : QubitId)
  | polygonHeader (sheet : String) (stroke fill : Option String)
  | polygonBody (colour : Colour) (corners : List QubitId)
  /-- Operations under one heading, with all their targets behind it. -/
  | operations (heading : String) (operations : List Operation)
  /-- Pauli products under one heading. -/
  | products (heading : String) (operations : List Operation)
  | detector (label : Label) (offsets : List Int)
  | observable (index : Nat) (offsets : List Int)
  | tick
deriving DecidableEq

def recordText (offset : Int) : String := s!"rec[{offset}]"

/-- The factors of a product, joined by combiners. -/
def productText (n : Numbering) (op : Operation) : String :=
  String.intercalate "*" (((op.gate.bases?.getD []).zip op.targets).map fun factor =>
    String.singleton factor.1 ++ toString (n.number factor.2))

/-- The value of a directive's key, in the form in which it is read back. -/
def valueText (value : String) : String := String.ofList (Directive.writeValue value.toList)

/-- The assignment of an optional value, with a blank before it. -/
def assignmentText (key : String) : Option String → String
  | none => ""
  | some value => s!" {key}={valueText value}"

namespace Line

def text (n : Numbering) : Line → String
  | sheet name z => s!"##! SHEET NAME={valueText name} Z={z}"
  | coordinates place q => s!"QUBIT_COORDS({place.text}) {n.number q}"
  | polygonHeader name stroke fill =>
      s!"##! POLY SHEET={valueText name}" ++ assignmentText "STROKE" stroke ++
        assignmentText "FILL" fill
  | polygonBody colour corners => s!"#!pragma POLYGON({colour.text}) {n.text corners}"
  | operations heading ops => s!"{heading} {n.text (ops.flatMap (·.targets))}"
  | products heading ops => s!"{heading} " ++ String.intercalate " " (ops.map (productText n))
  | detector label offsets =>
      s!"{label.text} " ++ String.intercalate " " (offsets.map recordText)
  | observable index offsets =>
      s!"OBSERVABLE_INCLUDE({index})" ++ String.join (offsets.map fun k => " " ++ recordText k)
  | tick => "TICK"

end Line

end StimOverlay.Emission
