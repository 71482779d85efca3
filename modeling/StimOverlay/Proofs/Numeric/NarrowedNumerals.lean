import StimOverlay.Proofs.Numeric.BoundedSums
import StimOverlay.Proofs.Numeric.ShortestNumerals

/-! Narrowed numerals. A number that is read in one format and kept in a narrower one is rounded once
more. It stays finite if and only if it is below the overflow of that format. What is written for the
narrower format is below its overflow again, so that the wider format reads a finite number. -/

namespace StimOverlay.Numeric

namespace Format

theorem overflow_lt_pow (f : Format) : f.overflow < 2 ^ ((f.precision : Int) + f.maxExponent) := by
  rw [overflow, zpow_add₀ two_ne_zero, zpow_natCast]
  gcongr
  norm_num

theorem pow_le_overflow (f : Format) : 2 ^ ((f.precision : Int) - 1 + f.maxExponent) ≤ f.overflow := by
  have hone : (1 : Rat) ≤ 2 ^ f.precision := one_le_pow₀ (by norm_num)
  rw [overflow, zpow_add₀ two_ne_zero, zpow_sub_one₀ two_ne_zero, zpow_natCast]
  gcongr
  linarith

theorem overflow_pos (f : Format) : 0 < f.overflow :=
  lt_of_lt_of_le (by positivity) f.pow_le_overflow

/-- Double precision is wider than single precision. -/
theorem overflow_binary32_lt : binary32.overflow < binary64.overflow := by
  refine (overflow_lt_pow _).trans_le (le_trans ?_ (pow_le_overflow _))
  exact zpow_le_zpow_right₀ (by norm_num) (by decide)

end Format

/-- A value half a unit below an even number is rounded to that number. -/
theorem le_nearestEven_of_even {a b n : Nat} (hb : 0 < b) (heven : n % 2 = 0)
    (h : (n : Rat) - 1 / 2 ≤ a / b) : n ≤ nearestEven a b := by
  have hb' : (0 : Rat) < b := by exact_mod_cast hb
  have hless : 2 * n * b ≤ 2 * a + b := by
    rw [le_div_iff₀ hb'] at h
    have hrat : (2 : Rat) * n * b ≤ 2 * a + b := by linarith
    exact_mod_cast hrat
  have hdiv : a = b * (a / b) + a % b := (Nat.div_add_mod a b).symm
  have hmod : a % b < b := Nat.mod_lt a hb
  unfold nearestEven
  dsimp only
  generalize a / b = q at *
  generalize a % b = r at *
  have hq : n ≤ q + 1 := by
    by_contra hlt
    have hge : (q + 2) * b ≤ n * b := Nat.mul_le_mul_right b (by omega)
    nlinarith
  rcases Nat.lt_or_ge q n with hbelow | hle
  · obtain rfl : n = q + 1 := by omega
    have hhalf : b ≤ 2 * r := by nlinarith
    rw [if_neg (by omega)]
    split
    · exact Nat.le_refl _
    · omega
  · split
    · exact hle
    split <;> omega

namespace Binary

variable {f g : Format}

/-- Rounding gives a finite number exactly below the overflow. -/
theorem isFinite_ofFraction_iff (hf : f.Ample) {a b : Nat} (hb : 0 < b) (negative : Bool) :
    (ofFraction f negative a b).isFinite ↔ (a : Rat) / b < f.overflow := by
  by_cases hzero : a = 0
  · subst hzero
    rw [ofFraction_zero, Nat.cast_zero, zero_div]
    exact iff_of_true rfl f.overflow_pos
  have ha : 0 < a := Nat.pos_of_ne_zero hzero
  have hp := hf.precision_pos
  obtain ⟨E, hE⟩ : ∃ E, max f.minExponent (floorLog2 a b - f.precision + 1) = E := ⟨_, rfl⟩
  refine ⟨fun hfinite => ?_, fun hsmall => (ofFraction_eq_finite ha hb negative hp hE hsmall).1⟩
  by_contra hlarge
  rw [not_lt] at hlarge
  have hpow : (0 : Rat) < 2 ^ E := by positivity
  have hmax : f.maxExponent ≤ E := by
    have hlog : (f.precision : Int) - 1 + f.maxExponent ≤ floorLog2 a b := by
      exact le_floorLog2_of_le ha hb (f.pow_le_overflow.trans hlarge)
    omega
  -- At the greatest exponent the significand does not fit; beyond it none does.
  have hwide : E = f.maxExponent →
      2 ^ f.precision ≤ nearestEven (a * Nat.pow 2 (-E).toNat) (b * Nat.pow 2 E.toNat) := by
    rintro rfl
    refine le_nearestEven_of_even (mul_pow_two_pos hb _) ?_ ?_
    · rw [← Nat.sub_add_cancel hp, pow_succ, Nat.mul_mod_left]
    · rw [scaled_div, le_div_iff₀ hpow]
      push_cast
      rwa [Format.overflow] at hlarge
  rw [ofFraction_eq ha hE rfl] at hfinite
  have hnone : ¬f.Canonical (nearestEven (a * Nat.pow 2 (-E).toNat) (b * Nat.pow 2 E.toNat)) E := by
    intro h
    exact absurd h.fits (Nat.not_lt.2 (hwide (le_antisymm h.greatest hmax)))
  rw [dif_neg hnone, dif_neg fun h => by have := h.greatest; omega] at hfinite
  cases hfinite

theorem isFinite_ofRat_iff (hf : f.Ample) {q : Rat} (negative : Bool) :
    (ofRat f negative q).isFinite ↔ |q| < f.overflow := by
  rw [ofRat, isFinite_ofFraction_iff hf q.den_pos, natAbs_num_div_den]

/-- A number is in the range of a format: rounded to the format, it stays finite. -/
def Fits (g : Format) (x : Binary f) : Prop := |x.toRat| < g.overflow

theorem isFinite_convert_iff (hg : g.Ample) {x : Binary f} :
    (x.convert g).isFinite ↔ x.isFinite ∧ x.Fits g := by
  cases x with
  | nan negative => exact iff_of_false Bool.false_ne_true fun h => Bool.false_ne_true h.1
  | infinite negative => exact iff_of_false Bool.false_ne_true fun h => Bool.false_ne_true h.1
  | finite negative m e h => exact (isFinite_ofRat_iff hg negative).trans (and_iff_right rfl).symm

/-- The greatest number of a format. -/
theorem canonical_greatest (hf : f.Ample) :
    f.Canonical (2 ^ f.precision - 1) f.maxExponent := by
  have hp := hf.precision_pos
  have hdouble : 2 ^ f.precision = 2 * 2 ^ (f.precision - 1) := by
    rw [← pow_succ', Nat.sub_add_cancel hp]
  have hone : 1 ≤ 2 ^ (f.precision - 1) := Nat.one_le_two_pow
  exact ⟨Nat.sub_lt (Nat.pow_pos (by decide)) (by decide), .inr (by rw [Nat.pow_eq]; omega),
    f.ordered, Int.le_refl _⟩

/-- A decimal below the overflow is read as a finite number. -/
theorem isFinite_ofDecimal (hf : f.Ample) {n : Nat} {k : Int} (h : (n : Rat) * 10 ^ k < f.overflow)
    (negative : Bool) : (ofDecimal f negative n k).isFinite := by
  unfold ofDecimal
  dsimp only
  split
  · rfl
  rename_i hdigits
  rw [Bool.or_eq_true, not_or, decide_eq_true_iff] at hdigits
  have hn : 0 < n := Nat.pos_of_ne_zero hdigits.1
  have htop := le_maxExponent_of_le hf (canonical_greatest hf) Nat.length_toDigits_pos
    (ten_pow_length_le hn) (k := k) (by
      refine h.le.trans_eq ?_
      rw [Format.overflow, Nat.cast_sub Nat.one_le_two_pow]
      push_cast
      ring)
  rw [if_neg htop.not_gt]
  refine (isFinite_ofFraction_iff hf (Nat.pow_pos (by decide)) negative).2 ?_
  exact (cast_div_pow_ten n k).symm ▸ h

/-- What is written for a number is at most the overflow of its format. -/
theorem shortest_le_overflow {m : Nat} {e : Int} (hm : 0 < m) (h : f.Canonical m e) :
    (shortest f .up m e).toRat ≤ f.overflow := by
  have hhigh := (Catchment.le_of_contains (Catchment.contains_shortest hm h .up)).2
  have hfits : (m : Rat) + 1 ≤ 2 ^ f.precision := by exact_mod_cast h.fits
  have hgreatest : (2 : Rat) ^ e ≤ 2 ^ f.maxExponent :=
    zpow_le_zpow_right₀ (by norm_num) h.greatest
  rw [Catchment.high_ofScaled] at hhigh
  refine hhigh.trans ?_
  exact mul_le_mul (by linarith) hgreatest (by positivity) (by linarith)

/-- What is written for a finite number is read as a finite number in a wider format. -/
theorem exists_readFinite?_text (hg : g.Ample) (hwider : f.overflow < g.overflow) {x : Binary f}
    (hx : x.isFinite) : ∃ y, readFinite? g x.text.toList = some y := by
  cases x with
  | nan negative => cases hx
  | infinite negative => cases hx
  | finite negative m e h =>
      obtain ⟨n, k, hread, hvalue⟩ := exists_decimal_of_text g negative h
      refine ⟨ofDecimal g negative n k, ?_⟩
      have hsmall : (n : Rat) * 10 ^ k < g.overflow := by
        rw [hvalue]
        split_ifs with hm
        · rw [Decimal.toRat, Nat.cast_zero, zero_mul]
          exact g.overflow_pos
        · exact (shortest_le_overflow (Nat.pos_of_ne_zero hm) h).trans_lt hwider
      rw [readFinite?, hread, Option.filter_some, if_pos (isFinite_ofDecimal hg hsmall negative)]

end Binary

end StimOverlay.Numeric
