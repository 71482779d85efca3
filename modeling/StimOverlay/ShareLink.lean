import StimOverlay.Text.Percent
import StimOverlay.Text.Pieces
import StimOverlay.Text.Replace

/-! Links that carry a circuit in the fragment of a URL, as `#circuit=` and a compact form of the
text. Decoding gives the compact form back, which is circuit text in its own right: reading it undoes
the compaction. -/

namespace StimOverlay.ShareLink

/-- Why a fragment holds no circuit. -/
inductive Fault where
  | missingCircuit
  | invalidText (fault : Text.Utf8.Fault)
deriving DecidableEq

def Fault.message : Fault → String
  | missingCircuit => "No circuit= parameter in URL fragment"
  | invalidText fault => "Circuit parameter is not valid UTF-8: " ++ fault.message

/-- The abbreviations of compact text, in the order in which they are applied. -/
def abbreviations : List (String × String) := [
  ("QUBIT_COORDS", "Q"),
  ("DETECTOR", "DT"),
  ("OBSERVABLE_INCLUDE", "OI"),
  (", ", ","),
  (") ", ")")]

/-- Every kind of line end becomes a line feed. -/
def unifyLineEnds (text : List Char) : List Char :=
  Text.replaceEach [("\r\n", "\n"), ("\r", "\n")] text

/-- The compact form of a text: abbreviated, with underscores for blanks and semicolons for line
ends. -/
def compact (text : List Char) : List Char :=
  (Text.replaceEach abbreviations (unifyLineEnds text)).map fun c =>
    if c == ' ' then '_' else if c == '\n' then ';' else c

def circuitKey : String := "circuit"

/-- The fragment for a text. It is percent-encoded only if that is needed to tell it apart from other
parameters or from encoded text. -/
def fragment (text : List Char) : List Char :=
  let short := compact text
  let written := if short.any fun c => c == '%' || c == '&' then Text.Percent.encode short else short
  '#' :: circuitKey.toList ++ '=' :: written

/-- The URL for a text: the base without its fragment, and the fragment for the text. -/
def url (base text : List Char) : List Char := Text.before (· == '#') base ++ fragment text

/-- The percent-decoded parameters of a list of `key=value` parts; parts without a key are skipped. -/
def readParams : List (List Char) → Except Text.Utf8.Fault (List (String × String))
  | [] => .ok []
  | part :: parts =>
      match Text.splitOnce? (· == '=') part with
      | none => readParams parts
      | some ([], _) => readParams parts
      | some (key, value) => do
          let value ← Text.Percent.decode value
          let rest ← readParams parts
          .ok ((String.ofList key, String.ofList value) :: rest)

/-- The parameters of a fragment, whose `#` may be missing. -/
def params (fragment : List Char) : Except Text.Utf8.Fault (List (String × String)) :=
  let body := match fragment with
    | '#' :: rest => rest
    | _ => fragment
  readParams (Text.splitWhere (· == '&') body)

/-- The value of a parameter; the last of several counts. -/
def param? (ps : List (String × String)) (key : String) : Option String := ps.reverse.lookup key

/-- The circuit in a fragment or URL, in compact form. -/
def decode (link : List Char) : Except Fault String := do
  let body := match Text.splitOnce? (· == '#') link with
    | some (_, rest) => rest
    | none => link
  let ps ← (params body).mapError .invalidText
  match param? ps circuitKey with
  | some text => .ok text
  | none => .error .missingCircuit

end StimOverlay.ShareLink
