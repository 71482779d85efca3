import StimOverlay.Document.Basic
import StimOverlay.Text.Pieces
import StimOverlay.Yaml.Plain

/-! Documents as YAML. Mappings and sequences are written line by line, a sequence in the column of the
key it belongs to; texts of several lines become block scalars. A text stands without quotes only
where it is read as the same text. -/

namespace StimOverlay.Document.Yaml

open Numeric
open StimOverlay.Yaml (isBreak isPlainText)

/-- Double numbers are written out between `1e-5` and `1e16`. -/
def doubleNumerals : NumeralStyle where
  tie := .even
  positional := some (-5, 16)
  wholePoint := true
  plusExponent := false
  nan := ".nan"
  infinite := ".inf"
  negativeInfinite := "-.inf"

/-- Single numbers are written out between `1e-6` and `1e13`. -/
def singleNumerals : NumeralStyle := { doubleNumerals with positional := some (-6, 13) }

/-- A character that needs no escape. -/
def isPrintable (c : Char) : Bool :=
  let n := c.toNat
  n == 0xA || (0x20 ≤ n && n ≤ 0x7E) || (0xA0 ≤ n && n != 0xFEFF && n != 0xFFFE && n != 0xFFFF)

def isBlank (c : Char) : Bool := c == ' ' || c == '\t' || c == '\r' || c == '\u0085' || isBreak c

/-- Whether two neighbours of a text satisfy `p` and `q`. -/
def hasPair (p q : Char → Bool) : List Char → Bool
  | [] => false
  | [_] => false
  | c :: d :: rest => (p c && q d) || hasPair p q (d :: rest)

/-- Whether a text starts like the mark at the start or at the end of a document. -/
def startsWithMark (s : List Char) : Bool :=
  Text.startsWith s ['-', '-', '-'] || Text.startsWith s ['.', '.', '.']

/-- Whether a text starts with a character that means something else there. -/
def startsWithIndicator : List Char → Bool
  | [] => false
  | c :: rest =>
      ['#', ',', '[', ']', '\x7b', '\x7d', '&', '*', '!', '|', '>', '\'', '"', '%', '@',
          '\x60'].contains c ||
        ((c == '?' || c == ':' || c == '-') && rest.head?.all isBlank)

/-- Whether a colon ends a key or a number sign starts a comment within a text. -/
def hasIndicator (s : List Char) : Bool :=
  hasPair (· == ':') isBlank s || s.getLast? == some ':' || hasPair isBlank (· == '#') s

/-- Whether a text is nowhere broken by an escape or by a blank in front of a line end. -/
def isSimple (s : List Char) : Bool :=
  s.all isPrintable && !hasPair (· == ' ') isBreak s

/-- The ways to write a text. -/
inductive Style where
  | plain
  | singleQuoted
  | doubleQuoted
  /-- A block of lines. -/
  | block
deriving DecidableEq

/-- How a text is written: lines as a block, what would be read as something else in single quotes, and
the rest without quotes, unless the characters do not allow that. -/
def styleOf (s : List Char) : Style :=
  let first := s.head?
  let last := s.getLast?
  if s.contains '\n' then
    if isSimple s && last != some ' ' then .block else .doubleQuoted
  else
    let blankEnds := first == some ' ' || last == some ' ' || first.any isBreak || last.any isBreak
    if !isSimple s || hasPair isBreak (· == ' ') s then .doubleQuoted
    else if !isPlainText s || blankEnds || s.any isBreak ||
        startsWithMark s || startsWithIndicator s || hasIndicator s then .singleQuoted
    else .plain

/-- The number in hexadecimal digits, in upper case and at least `width` of them. -/
def hexDigits (width n : Nat) : List Char :=
  let digits := (Nat.toDigits 16 n).map Char.toUpper
  List.replicate (width - digits.length) '0' ++ digits

/-- The letter behind the backslash of a short escape. -/
def escapeLetter? (c : Char) : Option Char :=
  match c with
  | '\x00' => some '0'
  | '\x07' => some 'a'
  | '\x08' => some 'b'
  | '\t' => some 't'
  | '\n' => some 'n'
  | '\x0b' => some 'v'
  | '\x0c' => some 'f'
  | '\r' => some 'r'
  | '\x1b' => some 'e'
  | '"' => some '"'
  | '\\' => some '\\'
  | '\u0085' => some 'N'
  | '\u2028' => some 'L'
  | '\u2029' => some 'P'
  | _ => none

/-- A character as it stands in double quotes. -/
def escape (c : Char) : List Char :=
  match escapeLetter? c with
  | some letter => ['\\', letter]
  | none =>
      if isPrintable c then [c]
      else if c.toNat ≤ 0xFF then '\\' :: 'x' :: hexDigits 2 c.toNat
      else if c.toNat ≤ 0xFFFF then '\\' :: 'u' :: hexDigits 4 c.toNat
      else '\\' :: 'U' :: hexDigits 8 c.toNat

/-- Puts an indentation in front of every line that is not empty. -/
def indentLines (indent : Nat) (afterBreak : Bool) : List Char → List Char
  | [] => []
  | c :: rest =>
      if isBreak c then c :: indentLines indent true rest
      else if afterBreak then List.replicate indent ' ' ++ c :: indentLines indent false rest
      else c :: indentLines indent false rest

/-- What stands behind the bar of a block: the indentation if the first line does not show it, and
whether line ends at its end are to be kept. -/
def blockHints (s : List Char) : List Char :=
  (if s.head?.any fun c => c == ' ' || isBreak c then ['2'] else []) ++
    match s.reverse with
    | [] => ['-']
    | [c] => if isBreak c then ['+'] else ['-']
    | c :: d :: _ => if !isBreak c then ['-'] else if isBreak d then ['+'] else []

/-- Indented lines behind a quotation mark; the closing one is indented too if it starts a line. -/
def indentQuoted (indent : Nat) (s : List Char) : List Char :=
  indentLines indent false s ++ if s.getLast?.any isBreak then List.replicate indent ' ' else []

/-- A text whose further lines are indented as given. -/
def writeText (indent : Nat) (value : String) : String :=
  let s := value.toList
  match styleOf s with
  | .plain => value
  | .singleQuoted =>
      let doubled := s.flatMap fun c => if c == '\'' then ['\'', '\''] else [c]
      String.ofList ('\'' :: indentQuoted indent doubled ++ ['\''])
  | .doubleQuoted => String.ofList ('"' :: s.flatMap escape ++ ['"'])
  | .block =>
      String.ofList ('|' :: blockHints s ++ '\n' :: indentLines indent true s)

def indentation (column : Nat) : String := String.ofList (List.replicate column ' ')

/-- A line with its end; a block of lines may have brought one. -/
def endLine (s : String) : String := if s.toList.getLast?.any isBreak then s else s ++ "\n"

/-- Lines with what stands between them when all start in the given column. -/
def linePieces (column : Nat) : List String → List String
  | [] => []
  | [line] => [line]
  | line :: lines => endLine line :: indentation column :: linePieces column lines

/-- Lines that start in the given column, the first one without its indentation. -/
def joinLines (column : Nat) (lines : List String) : String := String.join (linePieces column lines)

/-- What a node stands behind. -/
inductive Place where
  | key
  | dash
deriving DecidableEq

/-- Lines of a node in the given column. Behind a dash the first one continues the line. -/
def block (place : Place) (column : Nat) (lines : List String) : String :=
  (if place = .dash then " " else "\n" ++ indentation column) ++ joinLines column lines

mutual

/-- The text of a node, with what separates it from the key or the dash in front of it, which stands
in the given column. -/
def write (place : Place) (column : Nat) : Document → String
  | .boolean value => if value then " true" else " false"
  | .integer value => " " ++ toString value
  | .double value => " " ++ doubleNumerals.write value
  | .single value => " " ++ singleNumerals.write value
  | .text value => " " ++ writeText (column + 2) value
  | .list [] => " []"
  | .list (item :: items) =>
      let dashes := if place = .dash then column + 2 else column
      block place dashes (("-" ++ write .dash dashes item) :: writeItems dashes items)
  | .record [] => " \x7b\x7d"
  | .record (entry :: entries) =>
      block place (column + 2)
        ((entry.1 ++ ":" ++ write .key (column + 2) entry.2) :: writeEntries (column + 2) entries)

/-- Items with their dashes in the given column. -/
def writeItems (column : Nat) : List Document → List String
  | [] => []
  | item :: items => ("-" ++ write .dash column item) :: writeItems column items

/-- Entries with their keys in the given column. -/
def writeEntries (column : Nat) : List (String × Document) → List String
  | [] => []
  | entry :: entries =>
      (entry.1 ++ ":" ++ write .key column entry.2) :: writeEntries column entries

end

end Yaml

/-- The record with the given entries as a YAML document. -/
def yaml (entries : List (String × Document)) : String :=
  Yaml.endLine (Yaml.joinLines 0 (Yaml.writeEntries 0 entries))

end StimOverlay.Document
