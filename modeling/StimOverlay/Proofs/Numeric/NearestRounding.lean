import Mathlib.Algebra.Order.Field.Power
import Mathlib.Data.Rat.Floor
import Mathlib.Tactic.FieldSimp
import Mathlib.Tactic.Linarith
import Mathlib.Tactic.NormNum
import Mathlib.Tactic.Positivity
import Mathlib.Tactic.Ring
import StimOverlay.Numeric.Arithmetic
import StimOverlay.Numeric.Shortest

/-! Rounding is right. A fraction in the catchment of a number is rounded to that number; in
particular a value that the format can hold is rounded to itself, and so are whole numbers that fit
the significand. -/

namespace StimOverlay.Numeric

theorem cast_pow_two (n : Nat) : ((Nat.pow 2 n : Nat) : Rat) = 2 ^ n := by
  rw [Nat.pow_eq, Nat.cast_pow]
  rfl

theorem zpow_eq_div (b : Rat) (e : Int) : b ^ e = b ^ e.toNat / b ^ (-e).toNat := by
  rcases Int.le_total 0 e with h | h
  · have hneg : (-e).toNat = 0 := by omega
    rw [hneg, pow_zero, div_one, ← zpow_natCast, Int.toNat_of_nonneg h]
  · have hpos : e.toNat = 0 := by omega
    rw [hpos, pow_zero, one_div, ← zpow_natCast, Int.toNat_of_nonneg (by omega), zpow_neg, inv_inv]

theorem Binary.scaled_eq (significand : Nat) (exponent : Int) :
    Binary.scaled significand exponent = significand * 2 ^ exponent := by
  rw [Binary.scaled, Rat.mkRat_eq_div, zpow_eq_div]
  push_cast [cast_pow_two]
  ring

/-- A format that holds the natural numbers whose digits fit a significand. -/
structure Format.Ample (f : Format) : Prop where
  precision_pos : 0 < f.precision
  fractions : f.minExponent + f.precision ≤ 1
  wholes : 0 ≤ f.maxExponent

/-- The format holds a natural number exactly: apart from zeros at its end, its digits fit a significand. -/
def Format.Holds (f : Format) (n : Nat) : Prop :=
  ∃ m k : Nat, m < 2 ^ f.precision ∧ (k : Int) ≤ f.maxExponent ∧ n = m * 2 ^ k

theorem Format.Ample.holds {f : Format} (hf : f.Ample) {n : Nat} (h : n < 2 ^ f.precision) :
    f.Holds n :=
  ⟨n, 0, h, hf.wholes, (Nat.mul_one n).symm⟩

theorem natAbs_num_div_den (q : Rat) : (q.num.natAbs : Rat) / q.den = |q| := by
  conv_rhs => rw [← Rat.num_div_den q]
  rw [abs_div, Nat.abs_cast, ← Int.cast_abs, Int.abs_eq_natAbs, Int.cast_natCast]

/-- A fraction with positive parts as a rational number. -/
theorem le_scaled_iff {a b : Nat} (hb : 0 < b) (e : Int) :
    b * Nat.pow 2 e.toNat ≤ a * Nat.pow 2 (-e).toNat ↔ (2 : Rat) ^ e ≤ a / b := by
  have hb' : (0 : Rat) < b := by exact_mod_cast hb
  have hpow : (0 : Rat) < 2 ^ (-e).toNat := by positivity
  rw [zpow_eq_div, div_le_div_iff₀ hpow hb', ← Nat.cast_le (α := Rat)]
  push_cast [cast_pow_two]
  rw [mul_comm (b : Rat)]

theorem log2_bounds {n : Nat} (h : 0 < n) :
    (2 : Rat) ^ (n.log2 : Int) ≤ n ∧ (n : Rat) < 2 ^ ((n.log2 : Int) + 1) := by
  constructor
  · rw [zpow_natCast]
    exact_mod_cast Nat.log2_self_le (by omega)
  · have h2 : ((n.log2 : Int) + 1) = ((n.log2 + 1 : Nat) : Int) := by push_cast; rfl
    rw [h2, zpow_natCast]
    exact_mod_cast Nat.lt_log2_self

/-- The magnitude of a positive fraction lies between two powers of two. -/
theorem floorLog2_spec {a b : Nat} (ha : 0 < a) (hb : 0 < b) :
    (2 : Rat) ^ floorLog2 a b ≤ a / b ∧ (a : Rat) / b < 2 ^ (floorLog2 a b + 1) := by
  have hb' : (0 : Rat) < b := by exact_mod_cast hb
  obtain ⟨halow, hahigh⟩ := log2_bounds ha
  obtain ⟨hblow, hbhigh⟩ := log2_bounds hb
  unfold floorLog2
  dsimp only
  split
  · refine ⟨(le_scaled_iff hb _).1 ‹_›, ?_⟩
    rw [div_lt_iff₀ hb']
    calc (a : Rat) < 2 ^ ((a.log2 : Int) + 1) := hahigh
      _ = 2 ^ ((a.log2 : Int) - b.log2 + 1) * 2 ^ (b.log2 : Int) := by
          rw [← zpow_add₀ two_ne_zero]
          congr 1
          ring
      _ ≤ 2 ^ ((a.log2 : Int) - b.log2 + 1) * b := by gcongr
  · rename_i h
    rw [le_scaled_iff hb, not_le] at h
    refine ⟨?_, by rwa [sub_add_cancel]⟩
    rw [le_div_iff₀ hb']
    calc (2 : Rat) ^ ((a.log2 : Int) - b.log2 - 1) * b
        ≤ 2 ^ ((a.log2 : Int) - b.log2 - 1) * 2 ^ ((b.log2 : Int) + 1) := by gcongr
      _ = 2 ^ (a.log2 : Int) := by
          rw [← zpow_add₀ two_ne_zero]
          congr 1
          ring
      _ ≤ a := halow

theorem floorLog2_lt_of_lt {a b : Nat} (ha : 0 < a) (hb : 0 < b) {k : Int}
    (h : (a : Rat) / b < 2 ^ k) : floorLog2 a b < k := by
  have hlt := (floorLog2_spec ha hb).1.trans_lt h
  exact (zpow_lt_zpow_iff_right₀ one_lt_two).1 hlt

theorem le_floorLog2_of_le {a b : Nat} (ha : 0 < a) (hb : 0 < b) {k : Int}
    (h : (2 : Rat) ^ k ≤ a / b) : k ≤ floorLog2 a b := by
  have hlt := h.trans_lt (floorLog2_spec ha hb).2
  have := (zpow_lt_zpow_iff_right₀ one_lt_two).1 hlt
  omega

theorem nearestEven_eq {a b n : Nat} (hb : 0 < b) (hlow : 2 * n * b ≤ 2 * a + b)
    (hhigh : 2 * a ≤ (2 * n + 1) * b)
    (htie : n % 2 = 1 → 2 * n * b < 2 * a + b ∧ 2 * a < (2 * n + 1) * b) :
    nearestEven a b = n := by
  have hdiv : a = b * (a / b) + a % b := (Nat.div_add_mod a b).symm
  have hmod : a % b < b := Nat.mod_lt a hb
  unfold nearestEven
  dsimp only
  generalize a / b = q at *
  generalize a % b = r at *
  subst hdiv
  have hq : q = n ∨ q + 1 = n := by
    rcases Nat.lt_trichotomy q n with h | h | h
    · right
      by_contra hne
      have h2 : q + 2 ≤ n := by omega
      nlinarith
    · exact .inl h
    · exfalso
      have h1 : n + 1 ≤ q := h
      nlinarith
  rcases hq with rfl | rfl
  · have hle : 2 * r ≤ b := by nlinarith
    rcases Nat.lt_or_eq_of_le hle with h | h
    · rw [if_pos h]
    · rw [if_neg (by omega), if_neg (by omega)]
      rcases Nat.mod_two_eq_zero_or_one q with hpar | hpar
      · rw [hpar, Nat.add_zero]
      · have := (htie hpar).2
        nlinarith
  · have hle : b ≤ 2 * r := by nlinarith
    rw [if_neg (by omega)]
    rcases Nat.lt_or_eq_of_le hle with h | h
    · rw [if_pos h]
    · rw [if_neg (by omega)]
      rcases Nat.mod_two_eq_zero_or_one q with hpar | hpar
      · have := (htie (by omega)).1
        nlinarith
      · rw [hpar]

/-- Rounding to the nearest natural number, in terms of rational numbers. -/
theorem nearestEven_eq_of_near {a b n : Nat} (hb : 0 < b)
    (hlow : (n : Rat) - 1 / 2 ≤ a / b) (hhigh : (a : Rat) / b ≤ n + 1 / 2)
    (htie : n % 2 = 1 → (n : Rat) - 1 / 2 < a / b ∧ (a : Rat) / b < n + 1 / 2) :
    nearestEven a b = n := by
  have hb' : (0 : Rat) < b := by exact_mod_cast hb
  apply nearestEven_eq hb
  · rw [le_div_iff₀ hb'] at hlow
    have : (2 * n * b : Rat) ≤ 2 * a + b := by linarith
    exact_mod_cast this
  · rw [div_le_iff₀ hb'] at hhigh
    have : (2 * a : Rat) ≤ (2 * n + 1) * b := by linarith
    exact_mod_cast this
  · intro hodd
    obtain ⟨h1, h2⟩ := htie hodd
    rw [lt_div_iff₀ hb'] at h1
    rw [div_lt_iff₀ hb'] at h2
    have h1' : (2 * n * b : Rat) < 2 * a + b := by linarith
    have h2' : (2 * a : Rat) < (2 * n + 1) * b := by linarith
    exact ⟨by exact_mod_cast h1', by exact_mod_cast h2'⟩

theorem mul_pow_two_pos {b : Nat} (hb : 0 < b) (k : Nat) : 0 < b * Nat.pow 2 k :=
  Nat.mul_pos hb (Nat.pow_pos (by decide))

theorem scaled_div (a b : Nat) (e : Int) :
    ((a * Nat.pow 2 (-e).toNat : Nat) : Rat) / (b * Nat.pow 2 e.toNat : Nat) = a / b / 2 ^ e := by
  rw [zpow_eq_div]
  push_cast [cast_pow_two]
  have h1 : (2 : Rat) ^ e.toNat ≠ 0 := by positivity
  have h2 : (2 : Rat) ^ (-e).toNat ≠ 0 := by positivity
  rcases eq_or_ne (b : Rat) 0 with hb | hb
  · simp [hb]
  · field_simp

namespace Catchment

variable {f : Format} {m : Nat} {e : Int} {q : Rat}

/-- The significand is the least one with its leading digit, and there are finer exponents. -/
def Narrow (f : Format) (m : Nat) (e : Int) : Prop :=
  m = Nat.pow 2 (f.precision - 1) ∧ f.minExponent < e

theorem high_ofScaled : (ofScaled f m e).high = (m + 1 / 2) * 2 ^ e := by
  simp only [ofScaled, Binary.scaled_eq]
  rw [zpow_sub_one₀ two_ne_zero]
  push_cast
  ring

theorem low_ofScaled_of_narrow (h : Narrow f m e) :
    (ofScaled f m e).low = (m - 1 / 4) * 2 ^ e := by
  have h' : m = Nat.pow 2 (f.precision - 1) ∧ f.minExponent < e := h
  simp only [ofScaled, Binary.scaled_eq, h', and_self, if_true]
  rw [zpow_sub₀ two_ne_zero]
  push_cast
  ring

theorem low_ofScaled_of_not_narrow (h : ¬Narrow f m e) :
    (ofScaled f m e).low = (m - 1 / 2) * 2 ^ e := by
  have h' : ¬(m = Nat.pow 2 (f.precision - 1) ∧ f.minExponent < e) := h
  simp only [ofScaled, Binary.scaled_eq, h', if_false]
  rw [zpow_sub_one₀ two_ne_zero]
  push_cast
  ring

theorem le_of_contains (h : (ofScaled f m e).contains q) :
    (ofScaled f m e).low ≤ q ∧ q ≤ (ofScaled f m e).high := by
  unfold contains at h
  split at h
  · simpa using h
  · have h' : (ofScaled f m e).low < q ∧ q < (ofScaled f m e).high := by simpa using h
    exact ⟨h'.1.le, h'.2.le⟩

theorem lt_of_contains (h : (ofScaled f m e).contains q) (hodd : m % 2 = 1) :
    (ofScaled f m e).low < q ∧ q < (ofScaled f m e).high := by
  have hclosed : (ofScaled f m e).closed = false := by simp [ofScaled, hodd]
  rw [contains, hclosed] at h
  simpa using h

/-- The catchment reaches at least a quarter of a unit down. -/
theorem low_ofScaled_le : (ofScaled f m e).low ≤ (m - 1 / 4) * 2 ^ e := by
  by_cases hn : Narrow f m e
  · rw [low_ofScaled_of_narrow hn]
  · rw [low_ofScaled_of_not_narrow hn]
    gcongr
    norm_num

/-- The catchment reaches at most half a unit down. -/
theorem le_low_ofScaled : (m - 1 / 2) * 2 ^ e ≤ (ofScaled f m e).low := by
  by_cases hn : Narrow f m e
  · rw [low_ofScaled_of_narrow hn]
    gcongr
    norm_num
  · rw [low_ofScaled_of_not_narrow hn]

theorem leading_eq (hp : 0 < f.precision) :
    ((Nat.pow 2 (f.precision - 1) : Nat) : Rat) = 2 ^ ((f.precision : Int) - 1) := by
  rw [cast_pow_two, ← zpow_natCast]
  congr 1
  omega

/-- Only the catchment of a power of two reaches below that power. -/
theorem narrow_of_lt (hp : 0 < f.precision) (h : f.Canonical m e) (he : f.minExponent < e)
    (hlow : (ofScaled f m e).low ≤ q) (hq : q < 2 ^ ((f.precision : Int) - 1 + e)) :
    Narrow f m e := by
  have hpos : (0 : Rat) < 2 ^ e := by positivity
  have hleading : Nat.pow 2 (f.precision - 1) ≤ m := h.leading.resolve_left he.ne'
  rw [zpow_add₀ two_ne_zero, ← leading_eq hp] at hq
  by_contra hn
  rw [low_ofScaled_of_not_narrow hn] at hlow
  have hlt := lt_of_mul_lt_mul_right (hlow.trans_lt hq) hpos.le
  have hle : m ≤ Nat.pow 2 (f.precision - 1) := by
    have : (m : Rat) < (Nat.pow 2 (f.precision - 1) : Nat) + 1 := by linarith
    have : m < Nat.pow 2 (f.precision - 1) + 1 := by exact_mod_cast this
    omega
  exact hn ⟨by omega, he⟩

end Catchment

namespace Binary

variable {f : Format}

/-- Rounding once the exponent and the significand are known. -/
theorem ofFraction_eq {a b s : Nat} {E : Int} (ha : 0 < a)
    (hE : max f.minExponent (floorLog2 a b - f.precision + 1) = E)
    (hs : nearestEven (a * Nat.pow 2 (-E).toNat) (b * Nat.pow 2 E.toNat) = s) (negative : Bool) :
    ofFraction f negative a b =
      if h : f.Canonical s E then .finite negative s E h
      else if h : f.Canonical (s / 2) (E + 1) then .finite negative (s / 2) (E + 1) h
      else .infinite negative := by
  subst hE hs
  unfold ofFraction
  rw [if_neg (by omega)]

/-- A fraction in the catchment of a number is rounded to that number, when its digits end where the
number's do. -/
theorem ofFraction_of_contains_scaled {m : Nat} {e : Int} (h : f.Canonical m e) {a b : Nat}
    (ha : 0 < a) (hb : 0 < b) (hq : (Catchment.ofScaled f m e).contains (a / b))
    (hE : max f.minExponent (floorLog2 a b - f.precision + 1) = e) (negative : Bool) :
    ofFraction f negative a b = .finite negative m e h := by
  have hpos : (0 : Rat) < 2 ^ e := by positivity
  obtain ⟨hlow, hhigh⟩ := Catchment.le_of_contains hq
  have hodd := fun hodd => Catchment.lt_of_contains hq hodd
  have hstep : ((m : Rat) - 1 / 2) * 2 ^ e ≤ (Catchment.ofScaled f m e).low :=
    Catchment.le_low_ofScaled
  rw [Catchment.high_ofScaled] at hhigh hodd
  have hs : nearestEven (a * Nat.pow 2 (-e).toNat) (b * Nat.pow 2 e.toNat) = m := by
    apply nearestEven_eq_of_near (mul_pow_two_pos hb _)
    · rw [scaled_div, le_div_iff₀ hpos]
      exact hstep.trans hlow
    · rw [scaled_div, div_le_iff₀ hpos]
      exact hhigh
    · intro hm
      rw [scaled_div, lt_div_iff₀ hpos, div_lt_iff₀ hpos]
      exact ⟨hstep.trans_lt (hodd hm).1, (hodd hm).2⟩
  rw [ofFraction_eq ha hE hs, dif_pos h]

/-- A fraction in the catchment of a power of two and below it is rounded to that power: it is read
with one digit more, and rounding it carries. -/
theorem ofFraction_of_contains_narrow {m : Nat} {e : Int} (hp : 0 < f.precision)
    (h : f.Canonical m e) (hnarrow : Catchment.Narrow f m e) {a b : Nat} (ha : 0 < a) (hb : 0 < b)
    (hlow : (Catchment.ofScaled f m e).low ≤ a / b)
    (hsmall : (a : Rat) / b < 2 ^ ((f.precision : Int) - 1 + e)) (negative : Bool) :
    ofFraction f negative a b = .finite negative m e h := by
  have hpos : (0 : Rat) < 2 ^ e := by positivity
  have hL := floorLog2_lt_of_lt ha hb hsmall
  have hleading := Catchment.leading_eq hp
  rw [Catchment.low_ofScaled_of_narrow hnarrow] at hlow
  obtain ⟨hm, hgreater⟩ := hnarrow
  rw [zpow_add₀ two_ne_zero, ← hleading, ← hm] at hsmall
  rw [← hm] at hleading
  have hone : (1 : Rat) ≤ m := by
    rw [hm]
    exact_mod_cast Nat.one_le_two_pow
  have hL' : (f.precision : Int) - 2 + e ≤ floorLog2 a b := by
    apply le_floorLog2_of_le ha hb
    rw [zpow_add₀ two_ne_zero]
    have hquarter : (2 : Rat) ^ ((f.precision : Int) - 2) ≤ (m : Rat) - 1 / 4 := by
      rw [show (f.precision : Int) - 2 = f.precision - 1 - 1 by ring, zpow_sub_one₀ two_ne_zero,
        ← hleading]
      linarith
    exact (mul_le_mul_of_nonneg_right hquarter hpos.le).trans hlow
  have hE : max f.minExponent (floorLog2 a b - f.precision + 1) = e - 1 := by omega
  have hstep : (2 : Rat) ^ e = 2 ^ (e - 1) * 2 := by
    rw [zpow_sub_one₀ two_ne_zero]
    ring
  have hpos' : (0 : Rat) < 2 ^ (e - 1) := by positivity
  have hs : nearestEven (a * Nat.pow 2 (-(e - 1)).toNat) (b * Nat.pow 2 (e - 1).toNat) =
      2 * m := by
    apply nearestEven_eq_of_near (mul_pow_two_pos hb _)
    · rw [scaled_div, le_div_iff₀ hpos']
      push_cast
      rw [hstep] at hlow
      linarith
    · rw [scaled_div, div_le_iff₀ hpos']
      push_cast
      rw [hstep] at hsmall
      nlinarith
    · intro hodd
      omega
  have hwide : ¬f.Canonical (2 * m) (e - 1) := by
    intro hc
    have hlt := hc.fits
    have hdouble : Nat.pow 2 f.precision = 2 * Nat.pow 2 (f.precision - 1) := by
      rw [Nat.pow_eq, Nat.pow_eq, ← pow_succ']
      congr 1
      omega
    omega
  have hmid : 2 * m / 2 = m := by omega
  have hup : e - 1 + 1 = e := by ring
  rw [ofFraction_eq ha hE hs, dif_neg hwide]
  simp only [hmid, hup]
  rw [dif_pos h]

/-- A fraction in the catchment of a positive number is rounded to that number. -/
theorem ofFraction_of_contains {m : Nat} {e : Int} (hp : 0 < f.precision)
    (h : f.Canonical m e) {a b : Nat} (ha : 0 < a) (hb : 0 < b)
    (hq : (Catchment.ofScaled f m e).contains (a / b)) (negative : Bool) :
    ofFraction f negative a b = .finite negative m e h := by
  obtain ⟨hlow, hhigh⟩ := Catchment.le_of_contains hq
  have hfits : (m : Rat) + 1 ≤ 2 ^ (f.precision : Int) := by
    rw [zpow_natCast]
    have := h.fits
    rw [Nat.pow_eq] at this
    exact_mod_cast this
  rw [Catchment.high_ofScaled] at hhigh
  have htop : (a : Rat) / b < 2 ^ ((f.precision : Int) + e) := by
    rw [zpow_add₀ two_ne_zero]
    exact hhigh.trans_lt (by gcongr; linarith)
  have hL := floorLog2_lt_of_lt ha hb htop
  have hleast := h.least
  -- Below a power of two the gap is half as wide, and what lies there has one digit more.
  by_cases hmin : e = f.minExponent
  · exact ofFraction_of_contains_scaled h ha hb hq (by omega) negative
  · by_cases hlarge : (2 : Rat) ^ ((f.precision : Int) - 1 + e) ≤ a / b
    · have hL' := le_floorLog2_of_le ha hb hlarge
      exact ofFraction_of_contains_scaled h ha hb hq (by omega) negative
    · rw [not_le] at hlarge
      have hnarrow := Catchment.narrow_of_lt hp h (by omega) hlow hlarge
      exact ofFraction_of_contains_narrow hp h hnarrow ha hb hlow hlarge negative

theorem ofFraction_zero (negative : Bool) (b : Nat) :
    ofFraction f negative 0 b = .finite negative 0 f.minExponent f.canonical_zero := by
  have hs : nearestEven (0 * Nat.pow 2 (-f.minExponent).toNat)
      (b * Nat.pow 2 f.minExponent.toNat) = 0 := by
    rw [Nat.zero_mul, nearestEven, Nat.zero_div, Nat.zero_mod]
    split
    · rfl
    · rw [if_neg (by omega)]
  unfold ofFraction
  simp only [if_true, hs]
  rw [dif_pos f.canonical_zero]

theorem contains_self (m : Nat) (e : Int) :
    (Catchment.ofScaled f m e).contains (m * 2 ^ e) := by
  have hpos : (0 : Rat) < 2 ^ e := by positivity
  have hhigh : (m : Rat) * 2 ^ e < (Catchment.ofScaled f m e).high := by
    rw [Catchment.high_ofScaled]
    gcongr
    norm_num
  have hlow : (Catchment.ofScaled f m e).low < m * 2 ^ e := by
    refine Catchment.low_ofScaled_le.trans_lt ?_
    gcongr
    norm_num
  unfold Catchment.contains
  split
  · simp [hhigh.le, hlow.le]
  · simp [hhigh, hlow]

/-- A value that the format can hold is rounded to itself. -/
theorem ofFraction_of_canonical {m : Nat} {e : Int} (hp : 0 < f.precision) (hm : 0 < m)
    (h : f.Canonical m e) {a b : Nat} (hb : 0 < b) (hq : (a : Rat) / b = m * 2 ^ e)
    (negative : Bool) : ofFraction f negative a b = .finite negative m e h := by
  have hm' : (0 : Rat) < m := by exact_mod_cast hm
  have ha : 0 < a := by
    by_contra h0
    have hzero : a = 0 := by omega
    rw [hzero, Nat.cast_zero, zero_div] at hq
    have : (0 : Rat) < m * 2 ^ e := by positivity
    linarith
  exact ofFraction_of_contains hp h ha hb (hq ▸ contains_self m e) negative

theorem toRat_finite (negative : Bool) (m : Nat) (e : Int) (h : f.Canonical m e) :
    (finite negative m e h).toRat = if negative then -((m : Rat) * 2 ^ e) else m * 2 ^ e := by
  rw [toRat, scaled_eq]

theorem exists_canonical (hf : f.Ample) {n : Nat} (hn : 0 < n) (hheld : f.Holds n) :
    ∃ m e, 0 < m ∧ f.Canonical m e ∧ (m : Rat) * 2 ^ e = n := by
  obtain ⟨n, k, hlt, hk, rfl⟩ := hheld
  have hpos : 0 < n := Nat.pos_of_mul_pos_right hn
  have hlog : n.log2 < f.precision := (Nat.log2_lt (by omega)).2 hlt
  -- The significand is filled up with zeros.
  obtain ⟨j, hj⟩ : ∃ j, n.log2 + j + 1 = f.precision := ⟨f.precision - n.log2 - 1, by omega⟩
  refine ⟨n * 2 ^ j, (k : Int) - j, Nat.mul_pos hpos (Nat.pow_pos (by decide)), ⟨?_, ?_, ?_, ?_⟩, ?_⟩
  · have h : n * 2 ^ j < 2 ^ (n.log2 + 1) * 2 ^ j :=
      Nat.mul_lt_mul_of_pos_right Nat.lt_log2_self (Nat.pow_pos (by decide))
    rw [← pow_add, show n.log2 + 1 + j = f.precision by omega] at h
    exact h
  · right
    have h : 2 ^ n.log2 * 2 ^ j ≤ n * 2 ^ j := Nat.mul_le_mul_right _ (Nat.log2_self_le (by omega))
    rw [← pow_add, show n.log2 + j = f.precision - 1 by omega] at h
    exact h
  · have := hf.fractions
    omega
  · omega
  · rw [zpow_sub₀ two_ne_zero, zpow_natCast, zpow_natCast]
    push_cast
    field_simp

/-- A natural number that the format holds is rounded to itself. -/
theorem ofFraction_natCast (hf : f.Ample) {n : Nat} (hheld : f.Holds n) (negative : Bool) :
    (ofFraction f negative n 1).isFinite ∧
      (ofFraction f negative n 1).toRat = if negative then -(n : Rat) else n := by
  rcases Nat.eq_zero_or_pos n with rfl | hn
  · rw [ofFraction_zero, toRat_finite]
    exact ⟨rfl, by simp⟩
  · obtain ⟨m, e, hm, h, hval⟩ := exists_canonical hf hn hheld
    have hq : (n : Rat) / (1 : Nat) = m * 2 ^ e := by
      rw [hval, Nat.cast_one, div_one]
    rw [ofFraction_of_canonical hf.precision_pos hm h Nat.one_pos hq, toRat_finite, hval]
    exact ⟨rfl, rfl⟩

theorem toRat_ofNat (hf : f.Ample) {n : Nat} (hlt : n < 2 ^ f.precision) :
    (ofNat f n).isFinite ∧ (ofNat f n).toRat = n :=
  ofFraction_natCast hf (hf.holds hlt) false

/-- Conversion keeps natural numbers that both formats hold. -/
theorem toRat_convert {g : Format} (hg : g.Ample) {x : Binary f} (hx : x.isFinite) {n : Nat}
    (hn : x.toRat = n) (hheld : g.Holds n) :
    (x.convert g).isFinite ∧ (x.convert g).toRat = n := by
  cases x with
  | nan s => cases hx
  | infinite s => cases hx
  | finite s m e h =>
      rw [convert, hn, ofRat]
      have hnum : (n : Rat).num.natAbs = n := by simp
      have hden : (n : Rat).den = 1 := by simp
      rw [hnum, hden]
      obtain ⟨hfinite, hval⟩ := ofFraction_natCast hg hheld
        (if (n : Rat) = 0 then s else (n : Rat) < 0)
      refine ⟨hfinite, hval.trans ?_⟩
      by_cases hzero : (n : Rat) = 0
      · rw [if_pos hzero, hzero]
        simp
      · have hneg : ¬(n : Rat) < 0 := by simp
        rw [if_neg hzero]
        simp [hneg]

theorem nearestNat_of_toRat {x : Binary f} (hx : x.isFinite) {n : Nat} (hn : x.toRat = n)
    {limit : Nat} (hlimit : n ≤ limit) : x.nearestNat limit = n := by
  cases x with
  | nan s => cases hx
  | infinite s => cases hx
  | finite s m e h =>
      rw [nearestNat, hn, Rat.mkRat_eq_div]
      have hfloor : ((n : Rat) + ((1 : Int) : Rat) / ((2 : Nat) : Rat)).floor = n := by
        change ⌊(n : Rat) + ((1 : Int) : Rat) / ((2 : Nat) : Rat)⌋ = n
        rw [Int.floor_eq_iff]
        constructor
        · push_cast
          linarith
        · push_cast
          linarith
      rw [hfloor, Int.toNat_natCast, Nat.min_eq_right hlimit]

end Binary

theorem Format.ample_binary32 : Format.binary32.Ample := ⟨by decide, by decide, by decide⟩

theorem Format.ample_binary64 : Format.binary64.Ample := ⟨by decide, by decide, by decide⟩

end StimOverlay.Numeric
