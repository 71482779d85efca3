/-! Characters of YAML documents, by what they separate. -/

namespace StimOverlay.Yaml

def isGap (c : Char) : Bool := c == ' ' || c == '\t'

/-- A character that ends a line, once `unifyBreaks` has left one line feed for the ends of other kinds. -/
def isBreak (c : Char) : Bool := c == '\n' || c == '\u2028' || c == '\u2029'

def isSpace (c : Char) : Bool := isGap c || isBreak c

/-- A character that separates or encloses the nodes within brackets. -/
def isFlowIndicator (c : Char) : Bool :=
  c == ',' || c == '[' || c == ']' || c == '\x7b' || c == '\x7d'

/-- A character that a document may hold. -/
def isPrintable (c : Char) : Bool :=
  let n := c.toNat
  c == '\t' || c == '\n' || c == '\r' || n == 0x85 || (0x20 ≤ n && n ≤ 0x7E) ||
    (0xA0 ≤ n && n != 0xFFFE && n != 0xFFFF)

/-- Carriage returns, next lines, and carriage returns with their line feeds become line feeds. -/
def unifyBreaks : List Char → List Char
  | [] => []
  | '\r' :: '\n' :: rest => '\n' :: unifyBreaks rest
  | c :: rest => (if c == '\r' || c == '\u0085' then '\n' else c) :: unifyBreaks rest

/-- Whether a text is at its end or goes on with white space. -/
def endsWord (s : List Char) : Bool := s.head?.all isSpace

/-- Whether a text starts with three times the given character, and nothing else in that word. -/
def startsWithMark (c : Char) (s : List Char) : Bool :=
  [c, c, c].isPrefixOf s && endsWord (s.drop 3)

/-- Whether a line starts with the mark of the start or the end of a document. -/
def isDocumentMark (s : List Char) : Bool := startsWithMark '-' s || startsWithMark '.' s

end StimOverlay.Yaml
