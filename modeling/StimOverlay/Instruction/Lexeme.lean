import StimOverlay.Instruction.Target
import StimOverlay.Numeric.Numeral
import StimOverlay.Numeric.Total
import StimOverlay.Text.Blank

/-! Lexemes of a target list: gaps, targets, and stray text that is neither. The lexemes of a text
follow one another without loss, so their texts joined together are the text again. -/

namespace StimOverlay

open Numeric

inductive Lexeme where
  /-- A run of separators. -/
  | gap (text : List Char)
  | target (target : Target) (text : List Char)
  | stray (text : List Char)
deriving DecidableEq

namespace Lexeme

def text : Lexeme → List Char
  | gap text => text
  | target _ text => text
  | stray text => text

/-- A blank or a comma. The vertical tab separates nothing. -/
def isSeparator (c : Char) : Bool := Text.isAsciiBlank c || c == ','

/-- Numbers of qubits and sweep bits have to fit 32 bits. -/
def idBound : Nat := 4294967296

/-- The magnitude that record offsets have to stay below; its negative is allowed too. -/
def offsetBound : Nat := 9223372036854775808

def basis? (c : Char) : Option Pauli := Pauli.ofLetter? c.toUpper

/-- The target, or stray text if its number is out of range. -/
def ranged (inRange : Bool) (t : Target) (text : List Char) : Lexeme :=
  if inRange then target t text else stray text

/-- A plain or Pauli target after `mark`, which is empty or an exclamation mark. -/
def quantum? (mark : List Char) (s : List Char) : Option Lexeme :=
  let inverted := !mark.isEmpty
  match s with
  | [] => none
  | c :: rest =>
      if c.isDigit then
        let digits := s.takeWhile Char.isDigit
        let id := ofDigits digits
        some (ranged (id < idBound) (.qubit id inverted) (mark ++ digits))
      else match basis? c, rest.takeWhile Char.isDigit with
        | some basis, d :: ds =>
            let id := ofDigits (d :: ds)
            some (ranged (id < idBound) (.pauli basis id inverted) (mark ++ c :: d :: ds))
        | _, _ => none

/-- What follows `rec[`. Without a number the bracket itself is stray, without a closing bracket
everything up to there. -/
def recordAfter (start : List Char) (s : List Char) : Lexeme :=
  let sign := match s with
    | '-' :: _ => ['-']
    | _ => []
  let body := s.drop sign.length
  let digits := body.takeWhile Char.isDigit
  if digits.isEmpty then stray start
  else match body.drop digits.length with
    | ']' :: _ =>
        let magnitude := ofDigits digits
        let offset : Int := if sign.isEmpty then magnitude else -magnitude
        let inRange := if sign.isEmpty then magnitude < offsetBound else magnitude ≤ offsetBound
        ranged inRange (.record offset) (start ++ sign ++ digits ++ [']'])
    | _ => stray (start ++ sign ++ digits)

/-- What follows `sweep[`, provided it starts with a digit. -/
def sweepAfter? (start : List Char) (s : List Char) : Option Lexeme :=
  let digits := s.takeWhile Char.isDigit
  if digits.isEmpty then none
  else match s.drop digits.length with
    | ']' :: _ =>
        let index := ofDigits digits
        some (ranged (index < idBound) (.sweep index) (start ++ digits ++ [']']))
    | _ => some (stray (start ++ digits))

/-- The lexeme that a text with first character `c` starts with. -/
def first (c : Char) (rest : List Char) : Lexeme :=
  if isSeparator c then gap (c :: rest.takeWhile isSeparator)
  else match c, rest with
    | '*', _ => target .combiner ['*']
    | '!', _ => (quantum? ['!'] rest).getD (stray ['!'])
    | 'r', 'e' :: 'c' :: '[' :: more => recordAfter ['r', 'e', 'c', '['] more
    | 's', 'w' :: 'e' :: 'e' :: 'p' :: '[' :: more =>
        (sweepAfter? ['s', 'w', 'e', 'e', 'p', '['] more).getD (stray ['s'])
    | _, _ => (quantum? [] (c :: rest)).getD (stray [c])

/-- The lexemes of what remains of a text after `skip` characters, which belong to a lexeme that has
already been read. -/
def scanAfter : Nat → List Char → List Lexeme
  | _, [] => []
  | skip + 1, _ :: rest => scanAfter skip rest
  | 0, c :: rest =>
      let l := first c rest
      l :: scanAfter (l.text.length - 1) rest

def scan (s : List Char) : List Lexeme := scanAfter 0 s

def isGap : Lexeme → Bool
  | gap _ => true
  | _ => false

def octets (s : List Char) : Nat := total (s.map Char.utf8Size)

/-- The lexemes with the octets at which they start and end, the first at `start`. -/
def locate (start : Nat) : List Lexeme → List (Nat × Nat × Lexeme)
  | [] => []
  | l :: rest =>
      let stop := start + octets l.text
      (start, stop, l) :: locate stop rest

/-- The targets and stray texts of a target list, with their places in it. -/
def tokens (s : List Char) : List (Nat × Nat × Lexeme) :=
  (locate 0 (scan s)).filter (!·.2.2.isGap)

end Lexeme

end StimOverlay
