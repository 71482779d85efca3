import StimOverlay.Source.Pragma

/-! The normal form of circuit text. A semicolon ends a line like a line feed, pragma markers are
dropped, and every line that is not a `#` line has its shorthand spelled out: underscores count as
blanks, then the parts of instruction names that blanks have torn apart, and a few abbreviated
names, are written in full. The inside of a tag is left as it is. -/

namespace StimOverlay.Source

/-- The spellings to restore, in the order in which they are applied. Several overlap, and those with
a blank presuppose that underscores have become blanks. -/
def shorthand : List (String × String) := [
  ("Q(", "QUBIT_COORDS("),
  ("DT", "DETECTOR"),
  ("OI", "OBSERVABLE_INCLUDE"),
  (" COORDS", "_COORDS"),
  (" ERROR", "_ERROR"),
  ("C XYZ", "C_XYZ"),
  ("C NXYZ", "C_NXYZ"),
  ("C XNYZ", "C_XNYZ"),
  ("C XYNZ", "C_XYNZ"),
  ("H XY", "H_XY"),
  ("H XZ", "H_XZ"),
  ("H YZ", "H_YZ"),
  ("H NXY", "H_NXY"),
  ("H NXZ", "H_NXZ"),
  ("H NYZ", "H_NYZ"),
  (" INCLUDE", "_INCLUDE"),
  ("SQRT ", "SQRT_"),
  (" DAG ", "_DAG "),
  ("C ZYX", "C_ZYX"),
  ("C NZYX", "C_NZYX"),
  ("C ZNYX", "C_ZNYX"),
  ("C ZYNX", "C_ZYNX")]

/-- An overlay directive. -/
def isDirective (line : List Char) : Bool :=
  Text.startsWith (Text.trimStart line) ['#', '#', '!']

/-- A comment: a `#` line that is neither a directive nor a `#!` control line. -/
def isComment (line : List Char) : Bool :=
  match Text.trimStart line with
  | '#' :: '!' :: _ => false
  | '#' :: '#' :: '!' :: _ => false
  | '#' :: _ => true
  | _ => false

def isHashLine (line : List Char) : Bool :=
  Text.startsWith (Text.trimStart line) ['#']

/-- Spells out the shorthand in a stretch of text outside tags. -/
def spellOut (segment : List Char) : List Char :=
  Text.replaceEach shorthand (segment.map fun c => if c == '_' then ' ' else c)

/-- A line cut in front of and behind the tag that directly follows the instruction name, brackets
included; an unclosed tag reaches to the end of the line. -/
def cutTag? (line : List Char) : Option (List Char × List Char × List Char) :=
  let indent := line.takeWhile Text.isBlank
  let body := Text.trimStart line
  let name := body.takeWhile (!Text.endsName ·)
  match body.dropWhile (!Text.endsName ·) with
  | '[' :: rest =>
      let (tag, after) := Text.splitAfter (· == ']') ('[' :: rest)
      some (indent ++ name, tag, after)
  | _ => none

def normalizeInstruction (line : List Char) : List Char :=
  match cutTag? line with
  | some (name, tag, rest) => spellOut name ++ tag ++ spellOut rest
  | none => spellOut line

def normalizeLine (line : List Char) : List Char :=
  if isHashLine line then line else normalizeInstruction line

/-- The lines of a text in normal form. -/
def normalize (text : List Char) : List (List Char) :=
  (Text.lines (dropPragmas (text.map fun c => if c == ';' then '\n' else c))).map normalizeLine

end StimOverlay.Source
