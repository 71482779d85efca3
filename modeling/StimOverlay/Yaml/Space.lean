import StimOverlay.Yaml.Character

/-! White space within scalars that may go on in the next line. Blanks stand for themselves, except around
line ends; a line end stands for a space, and empty lines for as many line feeds. -/

namespace StimOverlay.Yaml

/-- White space as far as it has been read. -/
structure Space where
  /-- The blanks in front of the first line end. -/
  blanks : List Char := []
  /-- The first line end, unless it is escaped. -/
  first : Option Char := none
  /-- The line ends behind the first one. -/
  further : List Char := []
  /-- How many blanks follow the last line end, if there is one. -/
  column : Option Nat := none

namespace Space

/-- What follows a backslash at the end of a line. -/
def escapedBreak : Space := { column := some 0 }

def isEmpty (s : Space) : Bool := s.blanks.isEmpty && s.column.isNone

def push (s : Space) (c : Char) : Space :=
  match s.column with
  | none =>
      if isBreak c then { first := some c, column := some 0 } else { s with blanks := s.blanks ++ [c] }
  | some n =>
      if isBreak c then { s with further := s.further ++ [c], column := some 0 }
      else { s with column := some (n + 1) }

/-- What white space stands for. -/
def text (s : Space) : List Char :=
  match s.column, s.first with
  | none, _ => s.blanks
  | some _, none => s.further
  | some _, some c =>
      if c == '\n' then (if s.further.isEmpty then [' '] else s.further) else c :: s.further

/-- Whether a document starts or ends where the white space does. -/
def endsDocument (s : Space) (rest : List Char) : Bool := s.column == some 0 && isDocumentMark rest

end Space

end StimOverlay.Yaml
