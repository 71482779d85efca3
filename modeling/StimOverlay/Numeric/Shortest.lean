import StimOverlay.Numeric.Rounding

/-! The shortest decimal that reads back as a given binary number. Decimal grids are tried from
coarse to fine; the first grid with a point in the catchment of the number supplies the digits, the
nearer point where there are two. A coarser grid is contained in every finer one, so no shorter
decimal reads back. -/

namespace StimOverlay.Numeric

/-- The decimal number `digits * 10 ^ exponent`. -/
structure Decimal where
  digits : Nat
  exponent : Int
deriving DecidableEq

/-- Which of two equally near decimals is written. -/
inductive Tie where
  | up
  | even
deriving DecidableEq

def powerOfTen (exponent : Int) : Rat :=
  mkRat (Nat.pow 10 exponent.toNat) (Nat.pow 10 (-exponent).toNat)

def Decimal.toRat (d : Decimal) : Rat := (d.digits : Rat) * powerOfTen d.exponent

/-- The exact values that round to one positive number: those between `low` and `high`, the two
ends included when `closed`. -/
structure Catchment where
  value : Rat
  low : Rat
  high : Rat
  closed : Bool

namespace Catchment

/-- The catchment of `significand * 2 ^ exponent`. The gap below a power of two is half the gap
above it, except at the least exponent. -/
def ofScaled (f : Format) (significand : Nat) (exponent : Int) : Catchment :=
  let value := Binary.scaled significand exponent
  let narrow := significand = Nat.pow 2 (f.precision - 1) ∧ f.minExponent < exponent
  { value
    low := value - Binary.scaled 1 (if narrow then exponent - 2 else exponent - 1)
    high := value + Binary.scaled 1 (exponent - 1)
    closed := significand % 2 = 0 }

def contains (c : Catchment) (q : Rat) : Bool :=
  if c.closed then c.low ≤ q && q ≤ c.high else c.low < q && q < c.high

/-- The point of the grid of multiples of `10 ^ exponent` that lies in the catchment and is nearest
the value, if there is one; only the two neighbours of the value can qualify. -/
def onGrid (c : Catchment) (tie : Tie) (exponent : Int) : Option Decimal :=
  let unit := powerOfTen exponent
  let below := (c.value / unit).floor.toNat
  let lower : Decimal := ⟨below, exponent⟩
  let upper : Decimal := ⟨below + 1, exponent⟩
  match c.contains lower.toRat, c.contains upper.toRat with
  | false, false => none
  | true, false => some lower
  | false, true => some upper
  | true, true =>
      let left := c.value - lower.toRat
      let right := upper.toRat - c.value
      if left < right then some lower
      else if right < left then some upper
      else match tie with
        | .up => some upper
        | .even => some (if below % 2 = 0 then lower else upper)

/-- The first hit on the grids `exponent`, `exponent - 1`, …, at most `steps` of them tried. -/
def firstOnGrid (c : Catchment) (tie : Tie) : Nat → Int → Decimal
  | 0, exponent => ⟨(c.value / powerOfTen exponent).floor.toNat, exponent⟩
  | steps + 1, exponent =>
      match c.onGrid tie exponent with
      | some d => d
      | none => c.firstOnGrid tie steps (exponent - 1)

/-- An exponent whose power of ten is at least the positive value `q`, and at most a hundred times
as large. -/
def coarsest (q : Rat) : Int :=
  let a := q.num.natAbs
  if q.den ≤ a then ((Nat.toDigits 10 (a / q.den)).length : Int)
  else 1 - ((Nat.toDigits 10 (q.den / a)).length : Int)

end Catchment

/-- The shortest decimal for the positive number `significand * 2 ^ exponent`. A significand never
needs as many decimal digits as it has binary ones, which bounds the grids to try. -/
def shortest (f : Format) (tie : Tie) (significand : Nat) (exponent : Int) : Decimal :=
  let c := Catchment.ofScaled f significand exponent
  c.firstOnGrid tie (f.precision + 3) (Catchment.coarsest c.value)

end StimOverlay.Numeric
