import StimOverlay.Numeric.Numeral
import StimOverlay.Qubit
import StimOverlay.Text.Pieces

/-! Lists of qubits and of pairs of qubits as values of directives. What is no qubit number is
skipped. -/

namespace StimOverlay.Directive

open Numeric

def readQubit? (s : List Char) : Option QubitId := readNat? (maxQubitId + 1) (Text.trim s)

/-- Reads `0,1 2` or `(0, 1)`. -/
def readIds (value : List Char) : List QubitId :=
  (Text.splitWhere (fun c => c == ',' || c == '(' || c == ')' || Text.isBlank c) value).filterMap
    readQubit?

/-- Reads a pair such as `0-1`. -/
def readEdge? (part : List Char) : Option (QubitId × QubitId) := do
  let (a, b) ← Text.splitOnce? (· == '-') part
  let a ← readQubit? a
  let b ← readQubit? b
  some (a, b)

def isParenthesis (c : Char) : Bool := c == '(' || c == ')'

/-- Reads `(0-1, 2-3)`; parentheses count at the ends only. -/
def readEdges (value : List Char) : List (QubitId × QubitId) :=
  let inner := ((value.dropWhile isParenthesis).reverse.dropWhile isParenthesis).reverse
  (Text.splitWhere (· == ',') inner).filterMap readEdge?

end StimOverlay.Directive
