import StimOverlay.Proofs.Numeric.NearestRounding

/-! Exact arithmetic. A result that the format can hold is not rounded, so that arithmetic on dyadic fractions
with few digits is rational arithmetic. -/

namespace StimOverlay.Numeric

/-- A number has the value `q`. This leaves the sign of a zero open. -/
structure Binary.Is {f : Format} (x : Binary f) (q : Rat) : Prop where
  finite : x.isFinite
  value : x.toRat = q

/-- Some number of the format has the value `q`. -/
def Format.Has (f : Format) (q : Rat) : Prop := ∃ x : Binary f, x.Is q

namespace Binary

variable {f : Format} {x y : Binary f} {q r : Rat}

theorem exists_eq_finite (hx : x.isFinite) : ∃ negative m e h, x = finite negative m e h := by
  cases x with
  | nan => cases hx
  | infinite => cases hx
  | finite negative m e h => exact ⟨negative, m, e, h, rfl⟩

theorem toRat_eq_zero (negative : Bool) {e : Int} (h : f.Canonical 0 e) : (finite negative 0 e h).toRat = 0 := by
  rw [toRat_finite, Nat.cast_zero, zero_mul, neg_zero, ite_self]

/-- A number is determined by its value and its sign. -/
theorem ofRat_toRat (hx : x.isFinite) : ofRat f x.isNegative x.toRat = x := by
  obtain ⟨negative, m, e, h, rfl⟩ := exists_eq_finite hx
  rcases Nat.eq_zero_or_pos m with rfl | hm
  · have he : e = f.minExponent := h.leading.resolve_right (Nat.not_le.2 (Nat.pow_pos (by decide)))
    subst he
    rw [toRat_eq_zero, ofRat, if_pos rfl]
    exact ofFraction_zero negative 1
  · have hp : 0 < f.precision := by
      by_contra hp
      have hfits := h.fits
      rw [Nat.eq_zero_of_not_pos hp] at hfits
      exact absurd hfits (Nat.not_lt.2 hm)
    have hvalue := toRat_finite negative m e h
    have hpos : (0 : Rat) < m * 2 ^ e := by positivity
    generalize (finite negative m e h).toRat = q at hvalue ⊢
    have hq : (q.num.natAbs : Rat) / q.den = m * 2 ^ e := by
      rw [natAbs_num_div_den, hvalue]
      split
      · rw [abs_neg, abs_of_pos hpos]
      · exact abs_of_pos hpos
    rw [ofRat, ofFraction_of_canonical hp hm h q.den_pos hq]
    congr 1
    cases negative with
    | false =>
        rw [hvalue, if_neg Bool.false_ne_true, if_neg hpos.ne']
        exact decide_eq_false hpos.not_gt
    | true =>
        rw [hvalue, if_pos rfl, if_neg (neg_ne_zero.2 hpos.ne')]
        exact decide_eq_true (neg_lt_zero.2 hpos)

/-- Only zeros take the sign that is given. -/
theorem ofRat_congr (hq : q ≠ 0) (s t : Bool) : ofRat f s q = ofRat f t q := by
  rw [ofRat, ofRat, if_neg hq, if_neg hq]

theorem Is.isZero_iff (hx : x.Is q) : x.isZero ↔ q = 0 := by
  obtain ⟨hfinite, rfl⟩ := hx
  obtain ⟨negative, m, e, h, rfl⟩ := exists_eq_finite hfinite
  have hpow : (2 : Rat) ^ e ≠ 0 := by positivity
  rw [isZero, beq_iff_eq, toRat_finite]
  cases negative <;> simp [hpow]

theorem is_ofRat (h : f.Has q) (s : Bool) : (ofRat f s q).Is q := by
  obtain ⟨x, hfinite, rfl⟩ := h
  by_cases hq : x.toRat = 0
  · rw [hq, ofRat, if_pos rfl]
    have hzero := ofFraction_zero (f := f) s 1
    exact ⟨congrArg isFinite hzero, (congrArg toRat hzero).trans (toRat_eq_zero s _)⟩
  · rw [ofRat_congr hq s x.isNegative, ofRat_toRat hfinite]
    exact ⟨hfinite, rfl⟩

/-- Numbers of the same value are equal, zeros apart. -/
theorem Is.unique (hx : x.Is q) (hy : y.Is q) (hq : q ≠ 0) : x = y := by
  obtain ⟨hx, rfl⟩ := hx
  obtain ⟨hy, hvalue⟩ := hy
  rw [← ofRat_toRat hx, ← ofRat_toRat hy, hvalue]
  exact ofRat_congr hq _ _

theorem add_of_finite (hx : x.isFinite) (hy : y.isFinite) :
    x + y = ofRat f (x.isNegative && y.isNegative) (x.toRat + y.toRat) := by
  obtain ⟨s, m, e, h, rfl⟩ := exists_eq_finite hx
  obtain ⟨t, n, k, h', rfl⟩ := exists_eq_finite hy
  rfl

theorem sub_of_finite (hx : x.isFinite) (hy : y.isFinite) : x - y = x + -y := by
  obtain ⟨s, m, e, h, rfl⟩ := exists_eq_finite hx
  obtain ⟨t, n, k, h', rfl⟩ := exists_eq_finite hy
  rfl

theorem mul_of_finite (hx : x.isFinite) (hy : y.isFinite) :
    x * y = ofRat f (x.isNegative != y.isNegative) (x.toRat * y.toRat) := by
  obtain ⟨s, m, e, h, rfl⟩ := exists_eq_finite hx
  obtain ⟨t, n, k, h', rfl⟩ := exists_eq_finite hy
  rfl

theorem div_of_finite (hx : x.isFinite) (hy : y.isFinite) (hzero : y.toRat ≠ 0) :
    x / y = ofRat f (x.isNegative != y.isNegative) (x.toRat / y.toRat) := by
  obtain ⟨s, m, e, h, rfl⟩ := exists_eq_finite hx
  obtain ⟨t, n, k, h', rfl⟩ := exists_eq_finite hy
  have hn : n ≠ 0 := by
    rintro rfl
    exact hzero (toRat_eq_zero t h')
  change (if n = 0 then (if m = 0 then nan true else infinite (s != t)) else _) = _
  rw [if_neg hn]
  rfl

theorem rem_of_finite (hx : x.isFinite) (hy : y.isFinite) (hzero : y.toRat ≠ 0) :
    x.rem y = ofRat f x.isNegative (x.toRat - truncate (x.toRat / y.toRat) * y.toRat) := by
  obtain ⟨s, m, e, h, rfl⟩ := exists_eq_finite hx
  obtain ⟨t, n, k, h', rfl⟩ := exists_eq_finite hy
  have hn : n ≠ 0 := by
    rintro rfl
    exact hzero (toRat_eq_zero t h')
  rw [rem, if_neg hn]
  rfl

theorem Is.neg (hx : x.Is q) : (-x).Is (-q) := by
  obtain ⟨hfinite, rfl⟩ := hx
  obtain ⟨negative, m, e, h, rfl⟩ := exists_eq_finite hfinite
  refine ⟨rfl, ?_⟩
  change (Binary.finite (!negative) m e h).toRat = _
  rw [toRat_finite, toRat_finite]
  cases negative <;> simp

theorem Is.add (hx : x.Is q) (hy : y.Is r) (h : f.Has (q + r)) : (x + y).Is (q + r) := by
  rw [add_of_finite hx.finite hy.finite, hx.value, hy.value]
  exact is_ofRat h _

theorem Is.sub (hx : x.Is q) (hy : y.Is r) (h : f.Has (q - r)) : (x - y).Is (q - r) := by
  rw [sub_of_finite hx.finite hy.finite, sub_eq_add_neg]
  rw [sub_eq_add_neg] at h
  exact hx.add hy.neg h

theorem Is.mul (hx : x.Is q) (hy : y.Is r) (h : f.Has (q * r)) : (x * y).Is (q * r) := by
  rw [mul_of_finite hx.finite hy.finite, hx.value, hy.value]
  exact is_ofRat h _

theorem Is.div (hx : x.Is q) (hy : y.Is r) (hr : r ≠ 0) (h : f.Has (q / r)) : (x / y).Is (q / r) := by
  rw [div_of_finite hx.finite hy.finite (hy.value.symm ▸ hr), hx.value, hy.value]
  exact is_ofRat h _

theorem Is.compare? (hx : x.Is q) (hy : y.Is r) :
    x.compare? y = some (if q < r then .lt else if q = r then .eq else .gt) := by
  obtain ⟨hx, rfl⟩ := hx
  obtain ⟨hy, rfl⟩ := hy
  obtain ⟨s, m, e, h, rfl⟩ := exists_eq_finite hx
  obtain ⟨t, n, k, h', rfl⟩ := exists_eq_finite hy
  rfl

theorem Is.least (hx : x.Is q) (hy : y.Is r) : x.least y = if r < q then y else x := by
  have hnan : x.isNaN = false := by
    obtain ⟨negative, m, e, h, rfl⟩ := exists_eq_finite hx.finite
    rfl
  rw [Binary.least, hnan, if_neg Bool.false_ne_true, hy.compare? hx]
  split_ifs <;> simp_all

theorem least_infinite (hx : x.isFinite) : (infinite false).least x = x := by
  obtain ⟨negative, m, e, h, rfl⟩ := exists_eq_finite hx
  rfl

theorem isNegative_ofRat_zero (s : Bool) : (ofRat f s 0).isNegative = s := by
  rw [ofRat, if_pos rfl]
  exact congrArg isNegative (ofFraction_zero s 1)

theorem isNegative_neg (x : Binary f) : (-x).isNegative = !x.isNegative := by
  cases x <;> rfl

theorem Is.isNegative_of_pos (hx : x.Is q) (hq : 0 < q) : x.isNegative = false := by
  obtain ⟨hfinite, rfl⟩ := hx
  obtain ⟨negative, m, e, h, rfl⟩ := exists_eq_finite hfinite
  cases negative with
  | false => rfl
  | true =>
      rw [toRat_finite, if_pos rfl] at hq
      have hpos : (0 : Rat) ≤ m * 2 ^ e := by positivity
      linarith

/-- A number is not the negative zero. -/
def Unsigned (x : Binary f) : Prop := x.toRat = 0 → x.isNegative = false

/-- A negative zero changes nothing when it is added, and scaling a zero keeps its sign. -/
theorem zero_add_mul {z d t : Binary f} (hz : z.Is 0) (hd : d.Is 0) (hnegative : d.isNegative = true)
    (ht : t.isFinite) (hpositive : t.isNegative = false) : (z + d) * t = z := by
  have hsum : z + d = z := by
    rw [add_of_finite hz.finite hd.finite, hnegative, Bool.and_true, hd.value, add_zero]
    exact ofRat_toRat hz.finite
  rw [hsum, mul_of_finite hz.finite ht, hpositive, Bool.bne_false, hz.value, zero_mul]
  have hself := ofRat_toRat hz.finite
  rwa [hz.value] at hself

/-- A number is taken away from itself. -/
theorem unsigned_add_neg_mul {t : Binary f} (hx : x.isFinite) (ht : t.isFinite)
    (hpositive : t.isNegative = false) : ((x + -x) * t).Unsigned := by
  have hneg := (Is.neg ⟨hx, rfl⟩ : (-x).Is (-x.toRat))
  have hsum : x + -x = ofRat f false 0 := by
    rw [add_of_finite hx hneg.finite, hneg.value, isNegative_neg, add_neg_cancel]
    cases x.isNegative <;> rfl
  intro _
  have hzero : (ofRat f false (0 : Rat)).Is 0 := is_ofRat ⟨zero, rfl, toRat_eq_zero _ _⟩ false
  rw [hsum, mul_of_finite hzero.finite ht, hpositive, hzero.value, zero_mul, isNegative_ofRat_zero,
    isNegative_ofRat_zero]
  rfl

theorem Is.unsignedZero (hx : x.Is q) : x.unsignedZero.Is q := by
  obtain ⟨hfinite, rfl⟩ := hx
  obtain ⟨negative, m, e, h, rfl⟩ := exists_eq_finite hfinite
  rw [Binary.unsignedZero]
  split_ifs with hm
  · subst hm
    exact ⟨rfl, (toRat_eq_zero _ _).trans (toRat_eq_zero _ _).symm⟩
  · exact ⟨rfl, rfl⟩

/-- Two numbers are the same but for the sign of a zero when they have the same value. -/
theorem Is.unsignedZero_eq_iff (hx : x.Is q) (hy : y.Is r) : x.unsignedZero = y.unsignedZero ↔ q = r := by
  constructor
  · intro heq
    rw [← hx.unsignedZero.value, heq, hy.unsignedZero.value]
  · rintro rfl
    by_cases hq : q = 0
    · have hzero {x : Binary f} (hx : x.Is q) : x.unsignedZero = zero := by
        have hiszero := hx.isZero_iff.2 hq
        obtain ⟨negative, m, e, h, rfl⟩ := exists_eq_finite hx.finite
        exact if_pos (beq_iff_eq.1 hiszero)
      rw [hzero hx, hzero hy]
    · rw [hx.unique hy hq]

/-- An integer that fits the significand, divided by a power of two. -/
theorem has_dyadic (hf : f.Ample) {z : Int} {k : Nat} (hz : z.natAbs < 2 ^ f.precision)
    (hk : f.minExponent + f.precision + k ≤ 1) : f.Has (z / 2 ^ k) := by
  rcases eq_or_ne z 0 with rfl | hne
  · exact ⟨zero, rfl, by rw [Int.cast_zero, zero_div]; exact toRat_eq_zero _ _⟩
  obtain ⟨m, e, hm, h, hvalue⟩ := exists_canonical hf (Int.natAbs_pos.2 hne) (hf.holds hz)
  have hleast : 1 - (f.precision : Int) ≤ e := by
    have hone : (1 : Rat) ≤ m * 2 ^ e := by
      rw [hvalue]
      exact_mod_cast Int.natAbs_pos.2 hne
    have hlt : (2 : Rat) ^ (0 : Int) < 2 ^ ((f.precision : Int) + e) := by
      have hfits : (m : Rat) < 2 ^ f.precision := by exact_mod_cast h.fits
      rw [zpow_zero, zpow_add₀ two_ne_zero, zpow_natCast]
      exact hone.trans_lt (by gcongr)
    have := (zpow_lt_zpow_iff_right₀ one_lt_two).1 hlt
    omega
  have hcanonical : f.Canonical m (e - k) := by
    refine ⟨h.fits, ?_, by omega, by have := h.greatest; omega⟩
    by_cases hmin : e = f.minExponent
    · exact .inl (by omega)
    · exact .inr (h.leading.resolve_left hmin)
  refine ⟨finite (z < 0) m (e - k) hcanonical, rfl, ?_⟩
  have habs : (m : Rat) * 2 ^ (e - (k : Int)) = |(z : Rat)| / 2 ^ k := by
    rw [zpow_sub₀ two_ne_zero, zpow_natCast, ← mul_div_assoc, hvalue, ← Int.cast_abs, Int.abs_eq_natAbs,
      Int.cast_natCast]
  rw [toRat_finite, habs]
  split_ifs with hneg
  · rw [abs_of_neg (by exact_mod_cast of_decide_eq_true hneg), neg_div, neg_neg]
  · rw [abs_of_nonneg (by exact_mod_cast not_lt.1 fun h => hneg (decide_eq_true h))]

theorem truncate_div (z : Int) (w : Nat) : truncate ((z : Rat) / w) = z.tdiv w := by
  have hfloor (z : Int) (hz : 0 ≤ z) : ((z : Rat) / w).floor = z.tdiv w := by
    rw [Int.tdiv_eq_ediv_of_nonneg hz]
    exact Rat.floor_intCast_div_natCast z w
  rw [truncate]
  split_ifs with hneg
  · have hz : z < 0 := by
      by_contra hz
      rw [not_lt] at hz
      have : (0 : Rat) ≤ (z : Rat) / w := div_nonneg (by exact_mod_cast hz) (Nat.cast_nonneg w)
      exact absurd hneg this.not_gt
    rw [← neg_div, ← Int.cast_neg, hfloor _ (by omega), Int.neg_tdiv, neg_neg]
  · rcases le_or_gt 0 z with hz | hz
    · exact hfloor z hz
    · have hw : w = 0 := by
        by_contra hw
        have hpos : (0 : Rat) < w := by exact_mod_cast Nat.pos_of_ne_zero hw
        exact hneg (div_neg_of_neg_of_pos (by exact_mod_cast hz) hpos)
      rw [hw, Nat.cast_zero, div_zero, Int.ofNat_zero, Int.tdiv_zero]
      rfl

/-- A remainder is zero when the division is exact. -/
theorem isZero_rem (hf : f.Ample) {z : Int} {w k : Nat} (hx : x.Is (z / 2 ^ k)) (hy : y.Is (w / 2 ^ k))
    (hw : 0 < w) (hz : z.natAbs < 2 ^ f.precision) (hk : f.minExponent + f.precision + k ≤ 1) :
    (x.rem y).isZero ↔ (w : Int) ∣ z := by
  have hpow : (2 : Rat) ^ k ≠ 0 := by positivity
  have hw' : (w : Rat) ≠ 0 := by exact_mod_cast hw.ne'
  have hvalue : x.toRat - truncate (x.toRat / y.toRat) * y.toRat = ((z.tmod w : Int) : Rat) / 2 ^ k := by
    rw [hx.value, hy.value, div_div_div_cancel_right₀ hpow, truncate_div, Int.tmod_def]
    push_cast
    ring
  have hhas : f.Has (((z.tmod w : Int) : Rat) / 2 ^ k) := by
    refine has_dyadic hf (Nat.lt_of_le_of_lt ?_ hz) hk
    rw [Int.natAbs_tmod]
    exact Nat.mod_le _ _
  rw [rem_of_finite hx.finite hy.finite (by rw [hy.value]; positivity), hvalue,
    (is_ofRat hhas _).isZero_iff, div_eq_zero_iff, or_iff_left hpow, Int.cast_eq_zero,
    Int.dvd_iff_tmod_eq_zero]

end Binary

end StimOverlay.Numeric
