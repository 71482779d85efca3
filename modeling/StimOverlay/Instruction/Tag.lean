/-! Tags read back. -/

namespace StimOverlay.Tag

inductive Fault where
  | unknownEscape (c : Char)
  | danglingEscape
  /-- There is no closing bracket. -/
  | unterminated (body : List Char)
deriving DecidableEq

def Fault.message : Fault → String
  | unknownEscape c => "unknown escape \\" ++ String.singleton c
  | danglingEscape => "dangling \\"
  | unterminated body => "unterminated [" ++ String.ofList body

/-- The character that a letter behind a backslash stands for. -/
def unescape? (c : Char) : Option Char :=
  if c == 'C' then some ']'
  else if c == 'r' then some '\r'
  else if c == 'n' then some '\n'
  else if c == 'B' then some '\\'
  else none

/-- Reads the rest of a tag whose body is `body`, and gives what follows its closing bracket. -/
def readFrom (body : List Char) : List Char → Except Fault (List Char × List Char)
  | [] => .error (.unterminated body)
  | ']' :: rest => .ok ([], rest)
  | ['\\'] => .error .danglingEscape
  | '\\' :: c :: rest =>
      match unescape? c with
      | none => .error (.unknownEscape c)
      | some d => (readFrom body rest).map fun r => (d :: r.1, r.2)
  | c :: rest => (readFrom body rest).map fun r => (c :: r.1, r.2)

/-- Reads the text behind an opening bracket up to the closing one: the tag, and what follows. -/
def read (body : List Char) : Except Fault (List Char × List Char) := readFrom body body

end StimOverlay.Tag
