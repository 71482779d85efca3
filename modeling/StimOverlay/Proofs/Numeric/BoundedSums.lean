import StimOverlay.Emission.Label
import StimOverlay.Proofs.Numeric.NearestRounding

/-! Bounded magnitudes. Rounding takes no number past a power of two that it was below, not even one
that is above it by less than half a unit; so a sum of bounded numbers, however many, stays finite. -/

namespace StimOverlay.Numeric

theorem le_nearestEven {a b n : Nat} (hb : 0 < b) (h : (n : Rat) ≤ a / b) :
    n ≤ nearestEven a b := by
  have hb' : (0 : Rat) < b := by exact_mod_cast hb
  rw [le_div_iff₀ hb'] at h
  have hquotient : n ≤ a / b := (Nat.le_div_iff_mul_le hb).2 (by exact_mod_cast h)
  unfold nearestEven
  dsimp only
  split
  · exact hquotient
  split
  · omega
  · omega

theorem nearestEven_le {a b n : Nat} (hb : 0 < b) (h : (a : Rat) / b < n + 1 / 2) :
    nearestEven a b ≤ n := by
  have hb' : (0 : Rat) < b := by exact_mod_cast hb
  have hless : 2 * a < (2 * n + 1) * b := by
    rw [div_lt_iff₀ hb'] at h
    have hrat : (2 : Rat) * a < (2 * n + 1) * b := by linarith
    exact_mod_cast hrat
  have hdiv : a = b * (a / b) + a % b := (Nat.div_add_mod a b).symm
  unfold nearestEven
  dsimp only
  generalize a / b = q at *
  generalize a % b = r at *
  have hq : q ≤ n := by
    by_contra hlt
    have hge : (n + 1) * b ≤ q * b := Nat.mul_le_mul_right b (by omega)
    nlinarith
  split
  · exact hq
  split
  · by_contra hlt
    have heq : q = n := by omega
    subst heq
    nlinarith
  · by_contra hlt
    have heq : q = n := by omega
    subst heq
    have htwice : 2 * r = b := by omega
    nlinarith

/-- The least magnitude that is too large for the format: it is half a step above the greatest number. -/
def Format.overflow (f : Format) : Rat := (2 ^ f.precision - 1 / 2) * 2 ^ f.maxExponent

namespace Binary

variable {f : Format}

/-- A fraction that is not too large is rounded to a multiple of its unit. -/
theorem ofFraction_eq_finite {a b : Nat} (ha : 0 < a) (hb : 0 < b) (negative : Bool)
    (hp : 0 < f.precision) {E : Int}
    (hE : max f.minExponent (floorLog2 a b - f.precision + 1) = E)
    (hsmall : (a : Rat) / b < f.overflow) :
    (ofFraction f negative a b).isFinite ∧
      |(ofFraction f negative a b).toRat| =
        nearestEven (a * Nat.pow 2 (-E).toNat) (b * Nat.pow 2 E.toNat) * 2 ^ E := by
  obtain ⟨hlow, hhigh⟩ := floorLog2_spec ha hb
  have hpow : (0 : Rat) < 2 ^ E := by positivity
  obtain ⟨s, hs⟩ : ∃ s, nearestEven (a * Nat.pow 2 (-E).toNat) (b * Nat.pow 2 E.toNat) = s :=
    ⟨_, rfl⟩
  rw [Format.overflow] at hsmall
  have hmax : E ≤ f.maxExponent := by
    have hlog : floorLog2 a b < f.precision + f.maxExponent := by
      refine floorLog2_lt_of_lt ha hb (hsmall.trans ?_)
      rw [zpow_add₀ two_ne_zero, zpow_natCast]
      gcongr
      norm_num
    have hordered := f.ordered
    omega
  have hgreatest : E = f.maxExponent → s < 2 ^ f.precision := by
    rintro rfl
    rw [← hs]
    refine Nat.lt_of_le_pred (Nat.pow_pos (by decide)) (nearestEven_le (mul_pow_two_pos hb _) ?_)
    rw [scaled_div, div_lt_iff₀ hpow, Nat.pred_eq_sub_one, Nat.cast_sub Nat.one_le_two_pow]
    push_cast
    linarith
  have hfits : s ≤ 2 ^ f.precision := by
    rw [← hs]
    refine nearestEven_le (mul_pow_two_pos hb _) ?_
    have hless : (a : Rat) / b / 2 ^ E < 2 ^ f.precision := by
      rw [div_lt_iff₀ hpow, ← zpow_natCast, ← zpow_add₀ two_ne_zero]
      exact hhigh.trans_le (zpow_le_zpow_right₀ (by norm_num) (by omega))
    rw [scaled_div]
    push_cast
    linarith
  have hleading : E = f.minExponent ∨ 2 ^ (f.precision - 1) ≤ s := by
    by_cases hleast : E = f.minExponent
    · exact .inl hleast
    · right
      rw [← hs]
      refine le_nearestEven (mul_pow_two_pos hb _) ?_
      rw [scaled_div, le_div_iff₀ hpow]
      push_cast
      rw [← zpow_natCast, ← zpow_add₀ two_ne_zero]
      exact (zpow_le_zpow_right₀ (by norm_num) (by omega)).trans hlow
  have habs (negative : Bool) {m : Nat} {e : Int} (h : f.Canonical m e) :
      |(finite negative m e h).toRat| = m * 2 ^ e := by
    have hnonneg : (0 : Rat) ≤ m * 2 ^ e := by positivity
    rw [toRat_finite]
    cases negative with
    | true => rw [if_pos rfl, abs_neg, abs_of_nonneg hnonneg]
    | false => rw [if_neg (by decide), abs_of_nonneg hnonneg]
  rw [ofFraction_eq ha hE hs, hs]
  by_cases hless : s < 2 ^ f.precision
  · have hcanonical : f.Canonical s E := ⟨hless, hleading, by omega, hmax⟩
    rw [dif_pos hcanonical]
    exact ⟨rfl, habs negative hcanonical⟩
  · have hbelow : E ≠ f.maxExponent := fun heq => hless (hgreatest heq)
    have hsame : s = 2 * 2 ^ (f.precision - 1) := by
      rw [← pow_succ', Nat.sub_add_cancel hp]
      omega
    have hhalf : s / 2 = 2 ^ (f.precision - 1) := by omega
    have hcanonical : f.Canonical (s / 2) (E + 1) := by
      rw [hhalf]
      exact ⟨Nat.pow_lt_pow_right (by decide) (by omega), .inr (Nat.le_refl _), by omega, by omega⟩
    rw [dif_neg fun h => hless h.fits, dif_pos hcanonical]
    refine ⟨rfl, ?_⟩
    rw [habs negative hcanonical, hhalf, hsame, zpow_add_one₀ two_ne_zero]
    push_cast
    ring

/-- What is below a power of two, or above it by less than half a unit, is not rounded past it. -/
theorem ofFraction_le (hf : f.Ample) {a b k : Nat} (hb : 0 < b) (negative : Bool)
    (hk : (k : Int) < f.maxExponent)
    (h : (a : Rat) / b < 2 ^ k + 2 ^ ((k : Int) - f.precision)) :
    (ofFraction f negative a b).isFinite ∧ |(ofFraction f negative a b).toRat| ≤ 2 ^ k := by
  by_cases hzero : a = 0
  · subst hzero
    rw [ofFraction_zero]
    refine ⟨rfl, ?_⟩
    rw [toRat_finite]
    simp
  have ha : 0 < a := Nat.pos_of_ne_zero hzero
  have hp := hf.precision_pos
  have hfractions := hf.fractions
  obtain ⟨E, hE⟩ : ∃ E, max f.minExponent (floorLog2 a b - f.precision + 1) = E := ⟨_, rfl⟩
  have hpow : (0 : Rat) < 2 ^ E := by positivity
  have hunit : (2 : Rat) ^ ((k : Int) - f.precision) ≤ 2 ^ (k : Int) :=
    zpow_le_zpow_right₀ (by norm_num) (by omega)
  have hlog : floorLog2 a b < k + 1 := by
    refine floorLog2_lt_of_lt ha hb ?_
    rw [zpow_add_one₀ two_ne_zero]
    rw [zpow_natCast] at hunit ⊢
    linarith
  have hsmall : (a : Rat) / b < f.overflow := by
    have hstep : (2 : Rat) ^ ((k : Int) + 1) ≤ 2 ^ f.maxExponent :=
      zpow_le_zpow_right₀ (by norm_num) (by omega)
    have htwo : (2 : Rat) ≤ 2 ^ f.precision := le_self_pow₀ (by norm_num) hp.ne'
    rw [zpow_add_one₀ two_ne_zero, zpow_natCast] at hstep
    rw [zpow_natCast] at hunit
    have hgreatest : (1 : Rat) * 2 ^ f.maxExponent ≤ f.overflow := by
      rw [Format.overflow]
      gcongr
      linarith
    linarith
  obtain ⟨hfinite, hvalue⟩ := ofFraction_eq_finite ha hb negative hp hE hsmall
  refine ⟨hfinite, ?_⟩
  have hle : (E : Int) ≤ k := by omega
  obtain ⟨d, hd⟩ : ∃ d : Nat, (k : Int) = E + d := ⟨((k : Int) - E).toNat, by omega⟩
  have hsplit : (2 : Rat) ^ k = 2 ^ d * 2 ^ E := by
    rw [← zpow_natCast, hd, zpow_add₀ two_ne_zero, zpow_natCast, mul_comm]
  have hnearest : nearestEven (a * Nat.pow 2 (-E).toNat) (b * Nat.pow 2 E.toNat) ≤ 2 ^ d := by
    refine nearestEven_le (mul_pow_two_pos hb _) ?_
    rw [scaled_div, div_lt_iff₀ hpow]
    push_cast
    rw [add_mul, ← hsplit]
    by_cases hbelow : floorLog2 a b < k
    · have hless : (a : Rat) / b < 2 ^ (k : Int) :=
        (floorLog2_spec ha hb).2.trans_le (zpow_le_zpow_right₀ (by norm_num) (by omega))
      rw [zpow_natCast] at hless
      linarith
    · have hhalf : (2 : Rat) ^ ((k : Int) - f.precision) = 1 / 2 * 2 ^ E := by
        rw [show (k : Int) - f.precision = E - 1 by omega, zpow_sub_one₀ two_ne_zero]
        ring
      rw [hhalf] at h
      exact h
  rw [hvalue, hsplit]
  gcongr
  exact_mod_cast hnearest

theorem ofRat_le (hf : f.Ample) {q : Rat} {k : Nat} (negative : Bool)
    (hk : (k : Int) < f.maxExponent) (h : |q| < 2 ^ k + 2 ^ ((k : Int) - f.precision)) :
    (ofRat f negative q).isFinite ∧ |(ofRat f negative q).toRat| ≤ 2 ^ k := by
  refine ofFraction_le hf q.den_pos _ hk ?_
  rw [natAbs_num_div_den]
  exact h

theorem one_le_ofNat (hf : f.Ample) {n : Nat} (hn : 0 < n) (h : (ofNat f n).isFinite) :
    1 ≤ (ofNat f n).toRat := by
  have hp := hf.precision_pos
  have hfractions := hf.fractions
  obtain ⟨E, hE⟩ : ∃ E, max f.minExponent (floorLog2 n 1 - f.precision + 1) = E := ⟨_, rfl⟩
  obtain ⟨s, hs⟩ : ∃ s, nearestEven (n * Nat.pow 2 (-E).toNat) (1 * Nat.pow 2 E.toNat) = s :=
    ⟨_, rfl⟩
  have hpow : (0 : Rat) < 2 ^ E := by positivity
  have hlow := (floorLog2_spec hn Nat.one_pos).1
  have hone : (0 : Int) ≤ floorLog2 n 1 := by
    refine le_floorLog2_of_le hn Nat.one_pos ?_
    rw [zpow_zero, Nat.cast_one, div_one]
    exact_mod_cast hn
  have hunits : 2 ^ (-E).toNat ≤ s := by
    rw [← hs]
    refine le_nearestEven (mul_pow_two_pos Nat.one_pos _) ?_
    rw [scaled_div, le_div_iff₀ hpow]
    push_cast
    rw [← zpow_natCast, ← zpow_add₀ two_ne_zero]
    refine (zpow_le_zpow_right₀ (by norm_num) ?_).trans hlow
    omega
  have hvalue {m : Nat} {e : Int} (hm : 2 ^ (-e).toNat ≤ m) : (1 : Rat) ≤ m * 2 ^ e := by
    have hcast : (2 : Rat) ^ (-e).toNat ≤ m := by exact_mod_cast hm
    calc (1 : Rat) = 2 ^ (0 : Int) := (zpow_zero _).symm
      _ ≤ 2 ^ (((-e).toNat : Int) + e) := zpow_le_zpow_right₀ (by norm_num) (by omega)
      _ = 2 ^ (-e).toNat * 2 ^ e := by rw [zpow_add₀ two_ne_zero, zpow_natCast]
      _ ≤ m * 2 ^ e := by gcongr
  unfold ofNat at h ⊢
  rw [ofFraction_eq hn hE hs] at h ⊢
  by_cases hcanonical : f.Canonical s E
  · rw [dif_pos hcanonical, toRat_finite, if_neg (by decide)]
    exact hvalue hunits
  by_cases hhalf : f.Canonical (s / 2) (E + 1)
  · rw [dif_neg hcanonical, dif_pos hhalf, toRat_finite, if_neg (by decide)]
    refine hvalue ?_
    by_cases hwhole : 0 ≤ E
    · have hleading := hhalf.leading.resolve_left (by omega)
      rw [show (-(E + 1)).toNat = 0 by omega, pow_zero]
      exact (Nat.one_le_two_pow).trans hleading
    · rw [Nat.le_div_iff_mul_le (by decide), ← pow_succ]
      rwa [show (-(E + 1)).toNat + 1 = (-E).toNat by omega]
  · rw [dif_neg hcanonical, dif_neg hhalf] at h
    cases h

/-- Finite, and at most the given power of two. -/
def Within (k : Nat) (x : Binary f) : Prop := x.isFinite ∧ |x.toRat| ≤ 2 ^ k

theorem Within.mono {k l : Nat} {x : Binary f} (h : x.Within k) (hle : k ≤ l) : x.Within l :=
  ⟨h.1, h.2.trans (pow_le_pow_right₀ (by norm_num) hle)⟩

theorem within_ofRat (hf : f.Ample) {q : Rat} {k : Nat} (negative : Bool)
    (hk : (k : Int) < f.maxExponent) (h : |q| ≤ 2 ^ k) : (ofRat f negative q).Within k := by
  refine ofRat_le hf negative hk (h.trans_lt ?_)
  have hunit : (0 : Rat) < 2 ^ ((k : Int) - f.precision) := by positivity
  linarith

theorem Within.add (hf : f.Ample) {k l : Nat} {x y : Binary f} (hx : x.Within k)
    (hy : y.Within l) (hk : (k : Int) < f.maxExponent) (hl : (l : Int) < k - f.precision) :
    (x + y).Within k := by
  obtain ⟨hx, hxk⟩ := hx
  obtain ⟨hy, hyl⟩ := hy
  cases x with
  | nan s => cases hx
  | infinite s => cases hx
  | finite s m e h =>
      cases y with
      | nan t => cases hy
      | infinite t => cases hy
      | finite t n d h' =>
          refine ofRat_le hf _ hk ?_
          have hless : (2 : Rat) ^ l < 2 ^ ((k : Int) - f.precision) := by
            rw [← zpow_natCast]
            exact zpow_lt_zpow_right₀ (by norm_num) hl
          have hsum := abs_add_le (finite s m e h).toRat (finite t n d h').toRat
          linarith

theorem Within.mul (hf : f.Ample) {k l : Nat} {x y : Binary f} (hx : x.Within k)
    (hy : y.Within l) (hk : ((k + l : Nat) : Int) < f.maxExponent) : (x * y).Within (k + l) := by
  obtain ⟨hx, hxk⟩ := hx
  obtain ⟨hy, hyl⟩ := hy
  cases x with
  | nan s => cases hx
  | infinite s => cases hx
  | finite s m e h =>
      cases y with
      | nan t => cases hy
      | infinite t => cases hy
      | finite t n d h' =>
          refine within_ofRat hf _ hk ?_
          rw [abs_mul, pow_add]
          gcongr

theorem Within.div (hf : f.Ample) {k : Nat} {x y : Binary f} (hx : x.Within k)
    (hy : y.isFinite → 1 ≤ y.toRat) (hnan : y.isNaN = false) (hk : (k : Int) < f.maxExponent) :
    (x / y).Within k := by
  obtain ⟨hx, hxk⟩ := hx
  cases x with
  | nan s => cases hx
  | infinite s => cases hx
  | finite s m e h =>
      cases y with
      | nan t => cases hnan
      | infinite t =>
          refine ⟨rfl, ?_⟩
          show |(finite (s != t) 0 f.minExponent f.canonical_zero).toRat| ≤ 2 ^ k
          rw [toRat_finite]
          simp
      | finite t n d h' =>
          have hone := hy rfl
          have hne : n ≠ 0 := by
            rintro rfl
            rw [toRat_finite] at hone
            norm_num at hone
          have hquotient : finite s m e h / finite t n d h' =
              ofRat f (s != t) ((finite s m e h).toRat / (finite t n d h').toRat) := if_neg hne
          rw [hquotient]
          refine within_ofRat hf _ hk ?_
          have hpos : 0 < (finite t n d h').toRat := by linarith
          rw [abs_div, abs_of_pos hpos, div_le_iff₀ hpos]
          have hpow : (0 : Rat) < 2 ^ k := by positivity
          nlinarith

theorem Within.floor (hf : f.Ample) {k : Nat} {x : Binary f} (hx : x.Within k)
    (hk : ((k + 1 : Nat) : Int) < f.maxExponent) : x.floor.Within (k + 1) := by
  obtain ⟨hx, hxk⟩ := hx
  cases x with
  | nan s => cases hx
  | infinite s => cases hx
  | finite s m e h =>
      refine within_ofRat hf _ hk ?_
      have hlow := Rat.floor_le (finite s m e h).toRat
      have hhigh := Rat.lt_floor_add_one (finite s m e h).toRat
      push_cast at hhigh
      have hone : (1 : Rat) ≤ 2 ^ k := one_le_pow₀ (by norm_num)
      obtain ⟨hneg, hpos⟩ := abs_le.1 hxk
      rw [abs_le, pow_succ]
      exact ⟨by linarith, by linarith⟩

theorem isNaN_ofFraction (f : Format) (negative : Bool) (a b : Nat) :
    (ofFraction f negative a b).isNaN = false := by
  unfold ofFraction
  dsimp only
  generalize (if a = 0 then f.minExponent
    else max f.minExponent (floorLog2 a b - f.precision + 1)) = exponent
  split
  · rfl
  split <;> rfl

theorem isNaN_ofNat (f : Format) (n : Nat) : (ofNat f n).isNaN = false :=
  isNaN_ofFraction f false n 1

end Binary

end StimOverlay.Numeric

namespace StimOverlay.Emission

open Numeric

variable {k : Nat}

theorem within_sum (hk : k ≤ 900) {xs : List Binary64} (h : ∀ x ∈ xs, x.Within k) {s : Binary64}
    (hs : s.Within (k + 54)) : (xs.foldl (· + ·) s).Within (k + 54) := by
  have hmax : Format.binary64.maxExponent = 971 := rfl
  have hprecision : Format.binary64.precision = 53 := rfl
  induction xs generalizing s with
  | nil => exact hs
  | cons x rest ih =>
      refine ih (fun y hy => h y (List.mem_cons_of_mem _ hy)) ?_
      exact hs.add Format.ample_binary64 (h x List.mem_cons_self) (by omega) (by omega)

theorem finite_roundToHalf (hk : k ≤ 900) {x : Binary64} (hx : x.Within (k + 54)) :
    (roundToHalf x).isFinite := by
  have hample := Format.ample_binary64
  have hmax : Format.binary64.maxExponent = 971 := rfl
  have hprecision : Format.binary64.precision = 53 := rfl
  obtain ⟨htwo, hvalue⟩ : (Binary.ofNat .binary64 2).isFinite ∧
      (Binary.ofNat .binary64 2).toRat = (2 : Nat) := Binary.toRat_ofNat hample (by decide)
  have hfactor : (Binary.ofNat .binary64 2).Within 1 := ⟨htwo, by rw [hvalue]; norm_num⟩
  have htwice : (x * .ofNat .binary64 2).Within (k + 54 + 1) := hx.mul hample hfactor (by omega)
  have hhalf : (Binary.ofDecimal .binary64 false 5 (-1)).Within 0 :=
    ⟨by decide +kernel, by decide +kernel⟩
  have hsum := htwice.add hample hhalf (by omega) (by omega)
  have hfloor := hsum.floor hample (by omega)
  refine (hfloor.div hample (fun _ => ?_) (Binary.isNaN_ofNat _ 2) (by omega)).1
  rw [hvalue]
  norm_num

/-- The middle of bounded coordinates, however many, is finite. -/
theorem finite_middle (hk : k ≤ 900) {xs : List Binary64} (h : ∀ x ∈ xs, x.Within k) :
    (middle xs).isFinite := by
  have hzero : (Binary.zero : Binary64).Within (k + 54) := by
    refine ⟨rfl, ?_⟩
    rw [Binary.zero, Binary.toRat_finite]
    simp
  have hmax : Format.binary64.maxExponent = 971 := rfl
  unfold middle
  split
  · rfl
  · rename_i hne
    refine finite_roundToHalf hk ((within_sum hk h hzero).div Format.ample_binary64
      (fun hfinite => ?_) (Binary.isNaN_ofNat _ xs.length) (by omega))
    refine Binary.one_le_ofNat Format.ample_binary64 ?_ hfinite
    exact List.length_pos_iff.2 (by simpa using hne)

end StimOverlay.Emission
