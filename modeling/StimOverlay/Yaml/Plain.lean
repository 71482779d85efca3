import StimOverlay.Numeric.Numeral
import StimOverlay.Yaml.Space

/-! Plain scalars: how far they reach, and what they stand for. A scalar without quotes is a text only if
it is not empty, no word for nothing or for a truth value, and no number; a text that is any of these has
to be quoted. -/

namespace StimOverlay.Yaml

open Numeric

/-- A character that is reserved where a scalar starts. -/
def isReserved (c : Char) : Bool :=
  isFlowIndicator c || ['#', '&', '*', '!', '|', '>', '\'', '"', '%', '@', '\x60'].contains c

/-- A plain scalar that has been read. -/
structure PlainScalar where
  text : List Char
  rest : List Char
  /-- Whether the line of its last character has ended. -/
  endsLine : Bool

/-- Whether a plain scalar ends behind the given white space, in front of the given text: it goes on only
in lines that are indented as far as the margin, unless it stands in brackets. -/
def endsPlain (inFlow : Bool) (margin : Nat) (space : Space) (c : Char) (rest : List Char) : Bool :=
  space.column.any (fun column => !inFlow && column < margin) || space.endsDocument (c :: rest) ||
    (c == '#' && !space.isEmpty) || (c == ':' && endsWord rest) || (inFlow && isFlowIndicator c)

/-- Reads the rest of a plain scalar, behind the given white space. No tab may indent its lines, and
in brackets no key may be followed by punctuation at once. -/
def readPlain (inFlow : Bool) (margin : Nat) (space : Space) : List Char → Option PlainScalar
  | [] => some ⟨[], [], space.column.isSome⟩
  | c :: rest =>
      if isSpace c then
        if c == '\t' && space.column.any (· < margin) then none
        else readPlain inFlow margin (space.push c) rest
      else if endsPlain inFlow margin space c rest then some ⟨[], c :: rest, space.column.isSome⟩
      else if inFlow && c == ':' && rest.head?.any (fun d => isFlowIndicator d || d == '?') then none
      else do
        let scalar ← readPlain inFlow margin {} rest
        some { scalar with text := space.text ++ c :: scalar.text }

/-- The words for nothing. -/
def nullWords : List String := ["null", "Null", "NULL", "~"]

def trueWords : List String := ["true", "True", "TRUE"]

def falseWords : List String := ["false", "False", "FALSE"]

/-- The words for what is not finite; only infinity may carry a sign. -/
def infinityWords : List String :=
  [".inf", ".Inf", ".INF", "+.inf", "+.Inf", "+.INF", "-.inf", "-.Inf", "-.INF"]

def nanWords : List String := [".nan", ".NaN", ".NAN"]

/-- The truth value that a word stands for. -/
def truth? (word : String) : Option Bool :=
  if trueWords.contains word then some true
  else if falseWords.contains word then some false
  else none

/-- The letters that mark a radix behind a zero. -/
def radixOf? (letter : Char) : Option Nat :=
  match letter with
  | 'x' => some 16
  | 'o' => some 8
  | 'b' => some 2
  | _ => none

/-- Integers are stored in 128 bits, negative ones with a sign among them. -/
def integerBound (negative : Bool) : Nat :=
  if negative then Nat.pow 2 127 + 1 else Nat.pow 2 128

/-- A text without its sign, and whether that is a minus sign. -/
def splitSign : List Char → Bool × List Char
  | '-' :: rest => (true, rest)
  | '+' :: rest => (false, rest)
  | s => (false, s)

/-- Whether a text is an integer in another radix than ten, such as `0x1F` or `-0b1`. -/
def isRadixInteger (s : List Char) : Bool :=
  match splitSign s with
  | (negative, '0' :: letter :: digits) =>
      match (radixOf? letter).bind fun radix => ofRadix? radix digits with
      | some n => n < integerBound negative
      | none => false
  | _ => false

/-- Whether a text consists of several digits, the first of which is zero. It is read as a text, but
older readers take it for a number. -/
def isZeroPadded (s : List Char) : Bool :=
  match (splitSign s).2 with
  | '0' :: d :: ds => (d :: ds).all Char.isDigit
  | _ => false

/-- Whether a text is a number, or could be taken for one. -/
def isNumber (s : List Char) : Bool :=
  isRadixInteger s || isZeroPadded s || (Binary.readFinite? .binary64 s).isSome ||
    (infinityWords ++ nanWords).contains (String.ofList s)

/-- Whether every reader takes a plain scalar for a text. -/
def isPlainText (s : List Char) : Bool :=
  let word := String.ofList s
  !s.isEmpty && !nullWords.contains word && (truth? word).isNone && !isNumber s

end StimOverlay.Yaml
