import StimOverlay.Numeric.Numeral

/-! Structured documents: what a report says, apart from the format that it is written in. -/

namespace StimOverlay

open Numeric

inductive Document where
  | boolean (value : Bool)
  | integer (value : Int)
  | double (value : Binary64)
  | single (value : Binary32)
  | text (value : String)
  | list (items : List Document)
  /-- Entries in the order in which they are written. The keys are words or natural numbers, so that no
  format has to quote them against being misread. -/
  | record (entries : List (String × Document))

namespace Document

def natural (n : Nat) : Document := .integer n

/-- A list of natural numbers. -/
def naturals (ns : List Nat) : Document := .list (ns.map natural)

/-- An entry that is left out when it has no value. -/
def optionalEntry (key : String) (value : Option String) : List (String × Document) :=
  value.toList.map fun v => (key, .text v)

end Document

end StimOverlay
