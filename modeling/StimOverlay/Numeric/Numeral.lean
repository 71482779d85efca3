import StimOverlay.Numeric.Shortest

/-! Written numbers. A `NumeralStyle` holds the choices a text format makes about its numbers; `write`
applies them to the shortest digits, and `read?` accepts the decimal notation that every style
with finite numbers stays within. -/

namespace StimOverlay.Numeric

/-- The value of a string of decimal digits. -/
def ofDigits (digits : List Char) : Nat :=
  digits.foldl (fun n c => 10 * n + (c.toNat - '0'.toNat)) 0

/-- The value of a digit, in either case, below the radix. -/
def digitValue? (radix : Nat) (c : Char) : Option Nat :=
  let value : Option Nat :=
    if c.isDigit then some (c.toNat - '0'.toNat)
    else if 'a' ≤ c && c ≤ 'z' then some (c.toNat - 'a'.toNat + 10)
    else if 'A' ≤ c && c ≤ 'Z' then some (c.toNat - 'A'.toNat + 10)
    else none
  value.filter (· < radix)

/-- The value of digits of the given radix, of which there has to be one at least. -/
def ofRadix? (radix : Nat) (digits : List Char) : Option Nat :=
  if digits.isEmpty then none
  else digits.foldlM (fun n c => (digitValue? radix c).map (radix * n + ·)) 0

/-- Reads a natural number below `bound`, an optional plus sign before its digits. -/
def readNat? (bound : Nat) (s : List Char) : Option Nat :=
  let digits := match s with
    | '+' :: rest => rest
    | _ => s
  if digits.isEmpty || digits.any (!·.isDigit) then none
  else
    let n := ofDigits digits
    if n < bound then some n else none

/-- The choices of a text format: which decimal of two equally near ones, between which positions of
the point a number is written without exponent, whether whole numbers carry `.0`, whether a positive
exponent carries a plus sign, and the words for the numbers without digits. -/
structure NumeralStyle where
  tie : Tie
  positional : Option (Int × Int)
  wholePoint : Bool
  plusExponent : Bool
  nan : String
  infinite : String
  negativeInfinite : String

namespace NumeralStyle

/-- Every digit is written out, and whole numbers have no point. -/
def plain : NumeralStyle where
  tie := .up
  positional := none
  wholePoint := false
  plusExponent := false
  nan := "NaN"
  infinite := "inf"
  negativeInfinite := "-inf"

def isPositional (l : NumeralStyle) (point : Int) : Bool :=
  match l.positional with
  | none => true
  | some (low, high) => low < point && point ≤ high

/-- The unsigned text of a decimal. -/
def digits (l : NumeralStyle) (d : Decimal) : List Char :=
  let ds := Nat.toDigits 10 d.digits
  let point : Int := ds.length + d.exponent
  if l.isPositional point then
    if 0 ≤ d.exponent then
      ds ++ List.replicate d.exponent.toNat '0' ++ (if l.wholePoint then ['.', '0'] else [])
    else if 0 < point then ds.take point.toNat ++ '.' :: ds.drop point.toNat
    else '0' :: '.' :: List.replicate (-point).toNat '0' ++ ds
  else
    let mantissa := match ds.drop 1 with
      | [] => ds
      | more => ds.take 1 ++ '.' :: more
    let sign := if point ≤ 0 then ['-'] else if l.plusExponent then ['+'] else []
    mantissa ++ 'e' :: sign ++ Nat.toDigits 10 (point - 1).natAbs

/-- The text of a number. -/
def write {f : Format} (l : NumeralStyle) : Binary f → String
  | .nan _ => l.nan
  | .infinite negative => if negative then l.negativeInfinite else l.infinite
  | .finite negative significand exponent _ =>
      let d := if significand = 0 then ⟨0, 0⟩ else shortest f l.tie significand exponent
      String.ofList ((if negative then ['-'] else []) ++ l.digits d)

end NumeralStyle

/-- A coordinate, angle or probability as it stands in circuit text. -/
def Binary.text {f : Format} (x : Binary f) : String := NumeralStyle.plain.write x

instance {f : Format} : ToString (Binary f) := ⟨Binary.text⟩

namespace Binary

variable {f : Format}

/-- The number nearest `± n * 10 ^ exponent`. Powers of ten beyond the range of the format are
settled by the number of digits alone. -/
def ofDecimal (f : Format) (negative : Bool) (n : Nat) (exponent : Int) : Binary f :=
  let top : Int := (Nat.toDigits 10 n).length + exponent
  if n = 0 || top < f.minExponent then .finite negative 0 f.minExponent f.canonical_zero
  else if f.maxExponent + f.precision < top then .infinite negative
  else ofFraction f negative (n * Nat.pow 10 exponent.toNat) (Nat.pow 10 (-exponent).toNat)

/-- The exponent part of a decimal numeral: nothing, or `e` with an optional sign and digits. -/
def readExponent? : List Char → Option Int
  | [] => some 0
  | c :: rest =>
      if c == 'e' || c == 'E' then
        let (negative, digits) := match rest with
          | '-' :: ds => (true, ds)
          | '+' :: ds => (false, ds)
          | ds => (false, ds)
        if digits.isEmpty || digits.any (!·.isDigit) then none
        else some (if negative then -(ofDigits digits : Int) else ofDigits digits)
      else none

/-- Reads a numeral without its sign. -/
def readMagnitude? (f : Format) (negative : Bool) (s : List Char) : Option (Binary f) :=
  let word := s.map Char.toLower
  if word == ['n', 'a', 'n'] then some (.nan negative)
  else if word == ['i', 'n', 'f'] || word == ['i', 'n', 'f', 'i', 'n', 'i', 't', 'y'] then
    some (.infinite negative)
  else
    let whole := s.takeWhile Char.isDigit
    let (fraction, rest) := match s.dropWhile Char.isDigit with
      | '.' :: more => (more.takeWhile Char.isDigit, more.dropWhile Char.isDigit)
      | more => ([], more)
    if whole.isEmpty && fraction.isEmpty then none
    else (readExponent? rest).map fun exponent =>
      ofDecimal f negative (ofDigits (whole ++ fraction)) (exponent - fraction.length)

/-- Reads a decimal numeral, such as `1`, `-.5`, `2.`, `1e-3` or `inf`, rounding to nearest. -/
def read? (f : Format) : List Char → Option (Binary f)
  | '-' :: rest => readMagnitude? f true rest
  | '+' :: rest => readMagnitude? f false rest
  | s => readMagnitude? f false s

/-- Reads a numeral that has a finite value. -/
def readFinite? (f : Format) (s : List Char) : Option (Binary f) :=
  (read? f s).filter isFinite

end Binary

end StimOverlay.Numeric
