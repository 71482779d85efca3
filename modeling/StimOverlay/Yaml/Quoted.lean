import StimOverlay.Numeric.Numeral
import StimOverlay.Yaml.Space

/-! Quoted scalars. In single quotes the quotation mark itself is written twice; in double quotes a
backslash starts an escape, or joins a line with the next one. -/

namespace StimOverlay.Yaml

open Numeric

/-- The character with the code point that the hexadecimal digits denote. -/
def ofCodePoint? (digits : List Char) : Option Char := do
  let n ← ofRadix? 16 digits
  if n.isValidChar then some (Char.ofNat n) else none

/-- The character that a single letter behind a backslash stands for. -/
def simpleEscape? (c : Char) : Option Char :=
  match c with
  | '0' => some '\x00'
  | 'a' => some '\x07'
  | 'b' => some '\x08'
  | 't' => some '\t'
  | '\t' => some '\t'
  | 'n' => some '\n'
  | 'v' => some '\x0b'
  | 'f' => some '\x0c'
  | 'r' => some '\r'
  | 'e' => some '\x1b'
  | ' ' => some ' '
  | '"' => some '"'
  | '/' => some '/'
  | '\\' => some '\\'
  | 'N' => some '\u0085'
  | '_' => some '\u00a0'
  | 'L' => some '\u2028'
  | 'P' => some '\u2029'
  | _ => none

/-- Reads a text up to its closing quotation mark, behind the given white space; what follows the mark
is left. -/
def readSingleQuoted (space : Space) : List Char → Option (List Char × List Char)
  | [] => none
  | '\'' :: '\'' :: rest => do
      let (text, rest) ← readSingleQuoted {} rest
      some (space.text ++ '\'' :: text, rest)
  | '\'' :: rest => some (space.text, rest)
  | c :: rest =>
      if isSpace c then readSingleQuoted (space.push c) rest
      else if space.endsDocument (c :: rest) then none
      else do
        let (text, rest) ← readSingleQuoted {} rest
        some (space.text ++ c :: text, rest)

/-- The same between double quotation marks. -/
def readDoubleQuoted (space : Space) : List Char → Option (List Char × List Char)
  | [] => none
  | '"' :: rest => some (space.text, rest)
  | '\\' :: 'x' :: a :: b :: rest => do
      let c ← ofCodePoint? [a, b]
      let (text, rest) ← readDoubleQuoted {} rest
      some (space.text ++ c :: text, rest)
  | '\\' :: 'u' :: a :: b :: c :: d :: rest => do
      let c ← ofCodePoint? [a, b, c, d]
      let (text, rest) ← readDoubleQuoted {} rest
      some (space.text ++ c :: text, rest)
  | '\\' :: 'U' :: a :: b :: c :: d :: e :: f :: g :: h :: rest => do
      let c ← ofCodePoint? [a, b, c, d, e, f, g, h]
      let (text, rest) ← readDoubleQuoted {} rest
      some (space.text ++ c :: text, rest)
  | '\\' :: c :: rest =>
      if isBreak c then do
        let (text, rest) ← readDoubleQuoted .escapedBreak rest
        some (space.text ++ text, rest)
      else do
        let c ← simpleEscape? c
        let (text, rest) ← readDoubleQuoted {} rest
        some (space.text ++ c :: text, rest)
  | c :: rest =>
      if isSpace c then readDoubleQuoted (space.push c) rest
      else if space.endsDocument (c :: rest) then none
      else do
        let (text, rest) ← readDoubleQuoted {} rest
        some (space.text ++ c :: text, rest)

/-- Reads a scalar up to the quotation mark that opened it. -/
def readQuoted (mark : Char) (s : List Char) : Option (List Char × List Char) :=
  if mark == '\'' then readSingleQuoted {} s else readDoubleQuoted {} s

end StimOverlay.Yaml
