import StimOverlay.Numeric.Rounding

/-! Arithmetic on binary numbers. Each operation on finite numbers is the exact rational result
rounded once; the other cases follow the usual conventions: a not-a-number operand is passed on
(the first of two), and an undefined result is the negative not-a-number. -/

namespace StimOverlay.Numeric.Binary

variable {f : Format}

def add : Binary f → Binary f → Binary f
  | nan s, _ => nan s
  | _, nan t => nan t
  | infinite s, infinite t => if s = t then infinite s else nan true
  | infinite s, finite .. => infinite s
  | finite .., infinite t => infinite t
  | x@(finite s ..), y@(finite t ..) => ofRat f (s && t) (x.toRat + y.toRat)

def sub : Binary f → Binary f → Binary f
  | nan s, _ => nan s
  | _, nan t => nan t
  | x, y => x.add y.neg

def mul : Binary f → Binary f → Binary f
  | nan s, _ => nan s
  | _, nan t => nan t
  | infinite s, infinite t => infinite (s != t)
  | infinite s, finite t m _ _ => if m = 0 then nan true else infinite (s != t)
  | finite s m _ _, infinite t => if m = 0 then nan true else infinite (s != t)
  | x@(finite s ..), y@(finite t ..) => ofRat f (s != t) (x.toRat * y.toRat)

def div : Binary f → Binary f → Binary f
  | nan s, _ => nan s
  | _, nan t => nan t
  | infinite _, infinite _ => nan true
  | infinite s, finite t .. => infinite (s != t)
  | finite s .., infinite t => finite (s != t) 0 f.minExponent f.canonical_zero
  | x@(finite s m _ _), y@(finite t n _ _) =>
      if n = 0 then (if m = 0 then nan true else infinite (s != t))
      else ofRat f (s != t) (x.toRat / y.toRat)

instance : Neg (Binary f) := ⟨neg⟩
instance : Add (Binary f) := ⟨add⟩
instance : Sub (Binary f) := ⟨sub⟩
instance : Mul (Binary f) := ⟨mul⟩
instance : Div (Binary f) := ⟨div⟩

/-- The integer part of `q`, toward zero. -/
def truncate (q : Rat) : Int := if q < 0 then -(-q).floor else q.floor

/-- The remainder of the division whose quotient is cut toward zero; it has the sign of `x`. -/
def rem : Binary f → Binary f → Binary f
  | nan s, _ => nan s
  | _, nan t => nan t
  | infinite _, _ => nan true
  | x, infinite _ => x
  | x@(finite s ..), y@(finite _ n _ _) =>
      if n = 0 then nan true
      else ofRat f s (x.toRat - truncate (x.toRat / y.toRat) * y.toRat)

/-- The greatest whole number not above `x`. -/
def floor : Binary f → Binary f
  | x@(finite s ..) => ofRat f s x.toRat.floor
  | x => x

/-- The numeric order, in which both zeros are equal and not-a-number is unrelated to
everything. -/
def compare? : Binary f → Binary f → Option Ordering
  | nan _, _ => none
  | _, nan _ => none
  | infinite s, infinite t => some (compare t s)
  | infinite s, finite .. => some (if s then .lt else .gt)
  | finite .., infinite t => some (if t then .gt else .lt)
  | x@(finite ..), y@(finite ..) =>
      some (if x.toRat < y.toRat then .lt else if x.toRat = y.toRat then .eq else .gt)

/-- Numeric equality: both zeros are equal, and not-a-number differs from itself. -/
def same (x y : Binary f) : Bool := x.compare? y == some .eq

def isZero : Binary f → Bool
  | finite _ m .. => m == 0
  | _ => false

/-- The lesser of two numbers, the first of two equal ones; a not-a-number gives way to the other
operand. -/
def least (x y : Binary f) : Binary f :=
  if x.isNaN then y
  else if y.compare? x = some .lt then y
  else x

/-- Whether `x` is finite without a fractional part. -/
def isWhole : Binary f → Bool
  | x@(finite ..) => x.toRat.den == 1
  | _ => false

/-- The integer part of `x`, kept within `low` and `high`; not-a-number gives zero. -/
def toInt (low high : Int) : Binary f → Int
  | nan _ => 0
  | infinite negative => if negative then low else high
  | x@(finite ..) => max low (min high (truncate x.toRat))

/-- The natural number nearest `x`, halves going up and everything below zero counting as zero, at
most `limit`; not-a-number gives zero. -/
def nearestNat (limit : Nat) : Binary f → Nat
  | nan _ => 0
  | infinite negative => if negative then 0 else limit
  | x@(finite ..) => min limit (x.toRat + mkRat 1 2).floor.toNat

end StimOverlay.Numeric.Binary
