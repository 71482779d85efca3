/-! Binary floating point in an arbitrary format. A number is stored as a sign, a significand and
an exponent in exactly one way, so two numbers are equal precisely when their stored bits are;
`Binary.toRat` is the value, and every operation elsewhere is an exact rational computation
followed by one rounding. -/

namespace StimOverlay.Numeric

/-- A format: how many binary digits a significand has and which exponents it may carry. -/
structure Format where
  precision : Nat
  minExponent : Int
  maxExponent : Int
  ordered : minExponent ≤ maxExponent := by decide

namespace Format

def binary64 : Format where
  precision := 53
  minExponent := -1074
  maxExponent := 971

def binary32 : Format where
  precision := 24
  minExponent := -149
  maxExponent := 104

/-- The stored form of `significand * 2 ^ exponent`: the leading digit of the significand is set
unless the exponent is already the least one. -/
structure Canonical (f : Format) (significand : Nat) (exponent : Int) : Prop where
  fits : significand < Nat.pow 2 f.precision
  leading : exponent = f.minExponent ∨ Nat.pow 2 (f.precision - 1) ≤ significand
  least : f.minExponent ≤ exponent
  greatest : exponent ≤ f.maxExponent

theorem canonical_iff {f : Format} {significand : Nat} {exponent : Int} :
    f.Canonical significand exponent ↔
      significand < Nat.pow 2 f.precision ∧
        (exponent = f.minExponent ∨ Nat.pow 2 (f.precision - 1) ≤ significand) ∧
        f.minExponent ≤ exponent ∧ exponent ≤ f.maxExponent :=
  ⟨fun h => ⟨h.fits, h.leading, h.least, h.greatest⟩, fun h => ⟨h.1, h.2.1, h.2.2.1, h.2.2.2⟩⟩

instance (f : Format) (significand : Nat) (exponent : Int) :
    Decidable (f.Canonical significand exponent) :=
  decidable_of_iff' _ canonical_iff

theorem canonical_zero (f : Format) : f.Canonical 0 f.minExponent :=
  ⟨Nat.pow_pos (by decide), .inl rfl, Int.le_refl _, f.ordered⟩

end Format

/-- A number of format `f`. Not-a-number keeps its sign because the sign is part of the stored
bits. -/
inductive Binary (f : Format) where
  | nan (negative : Bool)
  | infinite (negative : Bool)
  | finite (negative : Bool) (significand : Nat) (exponent : Int)
      (canonical : f.Canonical significand exponent)
deriving DecidableEq

abbrev Binary64 := Binary .binary64

abbrev Binary32 := Binary .binary32

namespace Binary

variable {f : Format}

def zero : Binary f := .finite false 0 f.minExponent f.canonical_zero

instance : Inhabited (Binary f) := ⟨zero⟩

def isNegative : Binary f → Bool
  | nan negative => negative
  | infinite negative => negative
  | finite negative .. => negative

def isFinite : Binary f → Bool
  | finite .. => true
  | _ => false

def isNaN : Binary f → Bool
  | nan _ => true
  | _ => false

/-- `significand * 2 ^ exponent`. -/
def scaled (significand : Nat) (exponent : Int) : Rat :=
  mkRat (significand * Nat.pow 2 exponent.toNat) (Nat.pow 2 (-exponent).toNat)

/-- The value of a finite number; anything else has none and counts as zero. -/
def toRat : Binary f → Rat
  | finite negative significand exponent _ =>
      if negative then -scaled significand exponent else scaled significand exponent
  | _ => 0

/-- Zero without its sign; every other number is left alone. Two coordinates are the same place
when they agree after this. -/
def unsignedZero : Binary f → Binary f
  | finite negative significand exponent h =>
      if significand = 0 then zero else finite negative significand exponent h
  | x => x

def neg : Binary f → Binary f
  | nan negative => nan !negative
  | infinite negative => infinite !negative
  | finite negative significand exponent h => finite (!negative) significand exponent h

end Binary

end StimOverlay.Numeric
