import StimOverlay.Directive.IdList
import StimOverlay.Directive.Keys

/-! Overlay directives: lines that start with `##!`. The first word of the body is the command and
decides the kind, in any case. -/

namespace StimOverlay

inductive DirectiveKind where
  | sheet
  | qubit
  | connections
  | highlight
  | polygon
  | unknown
deriving DecidableEq

structure Directive where
  kind : DirectiveKind
  /-- Everything behind `##!`, without blanks around it. -/
  body : String
  keys : Directive.Keys
deriving DecidableEq

namespace Directive

/-- The commands as they are usually written. -/
def commands : List String := ["SHEET", "QUBIT", "CONN SET", "HIGHLIGHT", "POLY"]

def kindOf (command : String) : DirectiveKind :=
  if command == "SHEET" then .sheet
  else if command == "QUBIT" then .qubit
  else if ["CONN", "CONN_SET", "CONNSET"].contains command then .connections
  else if command == "HIGHLIGHT" then .highlight
  else if ["POLY", "POLYGON", "POLYHDR"].contains command then .polygon
  else .unknown

/-- Drops the marker from the start of a text, as often as it stands there. -/
def dropMarkers : List Char → List Char
  | '#' :: '#' :: '!' :: rest => dropMarkers rest
  | s => s

/-- Reads a directive line. The command `CONN` may be followed by the word `SET`, which is then no
key. -/
def read (line : List Char) : Directive :=
  let body := Text.trim (dropMarkers (Text.trimStart line))
  let (command, rest) := (Text.splitOnce? Text.isBlank body).getD (body, [])
  let kind := kindOf (String.ofList (command.map Char.toUpper))
  let keys := Keys.read rest
  { kind
    body := String.ofList body
    keys := if kind = .connections then keys.dropLeading "SET" else keys }

end Directive

end StimOverlay
