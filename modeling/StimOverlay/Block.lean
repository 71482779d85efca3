import StimOverlay.Numeric.Numeral
import StimOverlay.Text.Pieces

/-! Repetition blocks. Lines are grouped into a tree by their `REPEAT` headers and closing braces
before anything else is made of them; the tree keeps every line's number, counted from one. -/

namespace StimOverlay

open Numeric

inductive Block where
  | line (number : Nat) (text : List Char)
  /-- A body to be repeated, between a header at line `start` and a closing brace at line `close`; a
  block that is never closed has none. -/
  | repetition (times start : Nat) (body : List Block) (close : Option Nat)
  /-- A closing brace without a block to close. -/
  | strayClose (number : Nat)
  /-- A header without a positive count. -/
  | malformed (number : Nat) (text : List Char)

namespace Block

/-- What a single line is to the block structure. -/
inductive Mark where
  | plain
  | close
  | header (times : Nat)
  | malformedHeader
deriving DecidableEq

def withoutComment (s : List Char) : List Char := Text.trim (Text.before (· == '#') s)

/-- The text behind the keyword of a header; other lines have none. -/
def headerRest? (s : List Char) : Option (List Char) :=
  if (s.take 6).map Char.toUpper == ['R', 'E', 'P', 'E', 'A', 'T'] then
    let rest := s.drop 6
    if rest.head?.all fun c => Text.isBlank c || c == '[' || c == '\x7b' then some rest else none
  else none

/-- Counts are stored in 64 bits. -/
def countBound : Nat := 18446744073709551616

/-- The count of a header, given the text behind its keyword: an optional tag, a positive number and
an opening brace. -/
def count? (rest : List Char) : Option Nat := do
  let body ← match withoutComment rest with
    | '[' :: tagged => (Text.splitOnce? (· == ']') tagged).map (·.2)
    | body => some body
  let number ← Text.dropLast? '\x7b' (Text.trim body)
  (readNat? countBound (Text.trim number)).filter (0 < ·)

/-- Classifies a line that has no blanks around it. -/
def mark (s : List Char) : Mark :=
  if s.head? != some '#' && withoutComment s == ['\x7d'] then .close
  else match headerRest? s with
    | none => .plain
    | some rest =>
        match count? rest with
        | some times => .header times
        | none => .malformedHeader

/-- An open block: its header, and what stands before it on its own level. -/
structure Open where
  times : Nat
  start : Nat
  before : Array Block

/-- A tree under construction: the open blocks, innermost first, and what has been read on the current
level. -/
structure Draft where
  enclosing : List Open := []
  level : Array Block := #[]

namespace Draft

def add (d : Draft) (b : Block) : Draft := { d with level := d.level.push b }

/-- Ends the innermost open block. -/
def close (d : Draft) (number : Nat) : Draft :=
  match d.enclosing with
  | [] => d.add (.strayClose number)
  | o :: outer =>
      ⟨outer, o.before.push (.repetition o.times o.start d.level.toList (some number))⟩

def read (d : Draft) (number : Nat) (text : List Char) : Draft :=
  let s := Text.trim text
  match mark s with
  | .plain => d.add (.line number text)
  | .close => d.close number
  | .header times => ⟨⟨times, number, d.level⟩ :: d.enclosing, #[]⟩
  | .malformedHeader => d.add (.malformed number s)

/-- The tree of everything read; blocks that are still open stay without a close. -/
def finish (d : Draft) : List Block :=
  (d.enclosing.foldl (fun level o => o.before.push (.repetition o.times o.start level.toList none))
    d.level).toList

end Draft

/-- Reads further lines, the first of which has the given number. -/
def readFrom (d : Draft) (number : Nat) : List (List Char) → Draft
  | [] => d
  | text :: rest => readFrom (d.read number text) (number + 1) rest

/-- The block tree of a list of lines. -/
def ofLines (lines : List (List Char)) : List Block := (readFrom {} 1 lines).finish

end Block

end StimOverlay
