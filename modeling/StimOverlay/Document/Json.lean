import StimOverlay.Document.Basic

/-! Documents as JSON. Every item and every entry has a line of its own, indented by two spaces more
than the brackets around it; empty brackets stand alone. -/

namespace StimOverlay.Document.Json

open Numeric

/-- Numbers are written out between `1e-5` and `1e16`, and always with a point or an exponent. What is
not finite has no numeral. -/
def numerals : NumeralStyle where
  tie := .even
  positional := some (-5, 16)
  wholePoint := true
  plusExponent := true
  nan := "null"
  infinite := "null"
  negativeInfinite := "null"

/-- A character as it stands in a string. -/
def escape (c : Char) : List Char :=
  if c == '"' then ['\\', '"']
  else if c == '\\' then ['\\', '\\']
  else if c == '\n' then ['\\', 'n']
  else if c == '\r' then ['\\', 'r']
  else if c == '\t' then ['\\', 't']
  else if c == '\x08' then ['\\', 'b']
  else if c == '\x0c' then ['\\', 'f']
  else if c.toNat < 0x20 then
    ['\\', 'u', '0', '0', Nat.digitChar (c.toNat / 16), Nat.digitChar (c.toNat % 16)]
  else [c]

def quote (s : String) : String := String.ofList ('"' :: s.toList.flatMap escape ++ ['"'])

/-- A line end and the indentation behind it. -/
def lineBreak (indent : Nat) : String := String.ofList ('\n' :: List.replicate indent ' ')

/-- Pieces between brackets, each on its own line. -/
def bracketed (opening closing : String) (indent : Nat) (pieces : List String) : String :=
  opening ++ lineBreak (indent + 2) ++
    String.intercalate ("," ++ lineBreak (indent + 2)) pieces ++ lineBreak indent ++ closing

mutual

/-- The text of a document that starts behind an indentation. -/
def write (indent : Nat) : Document → String
  | .boolean value => if value then "true" else "false"
  | .integer value => toString value
  | .double value => numerals.write value
  | .single value => numerals.write value
  | .text value => quote value
  | .list [] => "[]"
  | .list (item :: items) =>
      bracketed "[" "]" indent (write (indent + 2) item :: writeItems (indent + 2) items)
  | .record [] => "\x7b\x7d"
  | .record (entry :: entries) =>
      bracketed "\x7b" "\x7d" indent
        ((quote entry.1 ++ ": " ++ write (indent + 2) entry.2) :: writeEntries (indent + 2) entries)

def writeItems (indent : Nat) : List Document → List String
  | [] => []
  | item :: items => write indent item :: writeItems indent items

def writeEntries (indent : Nat) : List (String × Document) → List String
  | [] => []
  | entry :: entries =>
      (quote entry.1 ++ ": " ++ write indent entry.2) :: writeEntries indent entries

end

end Json

/-- The document as JSON. -/
def json (d : Document) : String := Json.write 0 d

end StimOverlay.Document
