import StimOverlay.Numeric.Binary

/-! Rounding of exact values to a binary format: the nearest number, and of two equally near ones
the one with an even significand. Magnitudes that would need too large an exponent become
infinite. -/

namespace StimOverlay.Numeric

/-- The natural number nearest `a / b`, the even one of two equally near. -/
def nearestEven (a b : Nat) : Nat :=
  let quotient := a / b
  let twice := 2 * (a % b)
  if twice < b then quotient
  else if b < twice then quotient + 1
  else quotient + quotient % 2

/-- The greatest `e` with `2 ^ e ≤ a / b`, for positive `a` and `b`. -/
def floorLog2 (a b : Nat) : Int :=
  let e : Int := (a.log2 : Int) - (b.log2 : Int)
  if b * Nat.pow 2 e.toNat ≤ a * Nat.pow 2 (-e).toNat then e else e - 1

namespace Binary

variable {f : Format}

/-- The number nearest `± a / b`. A significand that rounds up to the next power of two is halved,
and one whose exponent is out of range stands for infinity. -/
def ofFraction (f : Format) (negative : Bool) (a b : Nat) : Binary f :=
  let exponent :=
    if a = 0 then f.minExponent else max f.minExponent (floorLog2 a b - f.precision + 1)
  let significand :=
    nearestEven (a * Nat.pow 2 (-exponent).toNat) (b * Nat.pow 2 exponent.toNat)
  if h : f.Canonical significand exponent then .finite negative significand exponent h
  else if h : f.Canonical (significand / 2) (exponent + 1) then
    .finite negative (significand / 2) (exponent + 1) h
  else .infinite negative

/-- The number nearest `q`; an exact zero takes the sign `negativeZero`. -/
def ofRat (f : Format) (negativeZero : Bool) (q : Rat) : Binary f :=
  ofFraction f (if q = 0 then negativeZero else q < 0) q.num.natAbs q.den

def ofNat (f : Format) (n : Nat) : Binary f := ofFraction f false n 1

/-- The same value in another format, rounded. -/
def convert (g : Format) : Binary f → Binary g
  | nan negative => .nan negative
  | infinite negative => .infinite negative
  | x@(finite negative ..) => ofRat g negative x.toRat

end Binary

end StimOverlay.Numeric
