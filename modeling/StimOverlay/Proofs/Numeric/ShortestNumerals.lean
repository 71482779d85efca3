import Mathlib.Data.Bool.AllAny
import Mathlib.Data.Nat.Cast.Order.Field
import StimOverlay.Numeric.Numeral
import StimOverlay.Proofs.Numeric.NearestRounding
import StimOverlay.Text.Pieces

/-! Written numbers. The shortest decimal for a number lies in the catchment of that number, so what
is written for a finite number is read back as the same number. -/

namespace StimOverlay.Numeric

theorem ofDigits_eq (ds : List Char) : ofDigits ds = Nat.ofDigitChars 10 ds 0 :=
  Nat.ofDigitChars_eq_foldl.symm

theorem ofDigits_toDigits (n : Nat) : ofDigits (Nat.toDigits 10 n) = n := by
  rw [ofDigits_eq, Nat.ofDigitChars_ten_toDigits]

theorem ofDigits_zeros_append (k : Nat) (ds : List Char) :
    ofDigits (List.replicate k '0' ++ ds) = ofDigits ds := by
  rw [ofDigits_eq, ofDigits_eq, Nat.ofDigitChars_append, Nat.ofDigitChars_replicate_zero,
    Nat.mul_zero]

theorem ofDigits_append_zeros (ds : List Char) (k : Nat) :
    ofDigits (ds ++ List.replicate k '0') = 10 ^ k * ofDigits ds := by
  rw [ofDigits_eq, ofDigits_eq, Nat.ofDigitChars_append, Nat.ofDigitChars_replicate_zero]

theorem isDigit_of_mem_toDigits {n : Nat} {c : Char} (h : c ∈ Nat.toDigits 10 n) : c.isDigit :=
  Nat.isDigit_of_mem_toDigits (by decide) (by decide) h

def digitChars : List Char := ['0', '1', '2', '3', '4', '5', '6', '7', '8', '9']

/-- The characters of numbers, finite or not. -/
def numberChars : List Char := ['.', '-', 'i', 'n', 'f', 'N', 'a'] ++ digitChars

theorem mem_digitChars {c : Char} (h : c.isDigit) : c ∈ digitChars := by
  obtain ⟨hlow, hhigh⟩ := Char.isDigit_iff_toNat.1 h
  rw [← Char.ofNat_toNat c]
  generalize c.toNat = n at *
  have hrange : ∀ n ∈ List.range' 48 10, Char.ofNat n ∈ digitChars := by decide
  refine hrange n (List.mem_range'_1.2 ⟨hlow, ?_⟩)
  exact Nat.lt_succ_of_le hhigh

theorem lt_ten_pow_length (n : Nat) : n < 10 ^ (Nat.toDigits 10 n).length :=
  (Nat.length_toDigits_le_iff (by decide) Nat.length_toDigits_pos).1 (Nat.le_refl _)

theorem ten_pow_length_le {n : Nat} (h : 0 < n) : 10 ^ ((Nat.toDigits 10 n).length - 1) ≤ n := by
  by_contra hlt
  rw [Nat.not_le] at hlt
  by_cases hone : (Nat.toDigits 10 n).length - 1 = 0
  · rw [hone] at hlt
    omega
  · have hle := (Nat.length_toDigits_le_iff (by decide) (Nat.pos_of_ne_zero hone)).2 hlt
    omega

theorem powerOfTen_eq (e : Int) : powerOfTen e = 10 ^ e := by
  have hcast (n : Nat) : ((Nat.pow 10 n : Nat) : Rat) = 10 ^ n := by
    rw [Nat.pow_eq, Nat.cast_pow]
    rfl
  rw [powerOfTen, Rat.mkRat_eq_div, zpow_eq_div]
  push_cast [hcast]
  rfl

namespace Catchment

theorem contains_of_onGrid {c : Catchment} {tie : Tie} {e : Int} {d : Decimal}
    (h : c.onGrid tie e = some d) : c.contains d.toRat := by
  unfold onGrid at h
  dsimp only at h
  split at h
  · cases h
  · rename_i hlower _
    cases h
    exact hlower
  · rename_i _ hupper
    cases h
    exact hupper
  · rename_i hlower hupper
    split at h
    · cases h
      exact hlower
    split at h
    · cases h
      exact hupper
    cases tie with
    | up =>
        cases h
        exact hupper
    | even =>
        cases h
        split
        · exact hlower
        · exact hupper

/-- A grid that is finer than the distance from the value down to the end of the catchment has a point
in it. -/
theorem onGrid_isSome {c : Catchment} (tie : Tie) {e : Int} (hvalue : 0 ≤ c.value)
    (hlow : c.low + 10 ^ e ≤ c.value) (hhigh : c.value < c.high) : (c.onGrid tie e).isSome := by
  have hunit : (0 : Rat) < 10 ^ e := by positivity
  have hquotient : 0 ≤ c.value / 10 ^ e := by positivity
  have hfloor : (((c.value / 10 ^ e).floor.toNat : Nat) : Rat) = ((c.value / 10 ^ e).floor : Rat) := by
    have hnonneg : 0 ≤ (c.value / 10 ^ e).floor := Rat.le_floor_iff.2 (by exact_mod_cast hquotient)
    exact_mod_cast Int.toNat_of_nonneg hnonneg
  have hbelow : ((c.value / 10 ^ e).floor : Rat) * 10 ^ e ≤ c.value := by
    rw [← le_div_iff₀ hunit]
    exact Rat.floor_le _
  have habove : c.value < (((c.value / 10 ^ e).floor : Rat) + 1) * 10 ^ e := by
    rw [← div_lt_iff₀ hunit]
    exact_mod_cast Rat.lt_floor_add_one _
  have hcontains : c.contains (Decimal.toRat ⟨(c.value / powerOfTen e).floor.toNat, e⟩) := by
    rw [Decimal.toRat, powerOfTen_eq]
    dsimp only
    rw [hfloor]
    unfold contains
    split
    · rw [Bool.and_eq_true, decide_eq_true_iff, decide_eq_true_iff]
      exact ⟨by linarith, by linarith⟩
    · rw [Bool.and_eq_true, decide_eq_true_iff, decide_eq_true_iff]
      exact ⟨by linarith, by linarith⟩
  unfold onGrid
  dsimp only
  rw [hcontains]
  split
  · rename_i h _
    cases h
  · rfl
  · rfl
  · split
    · rfl
    split
    · rfl
    cases tie <;> rfl

theorem contains_firstOnGrid {c : Catchment} {tie : Tie} {steps : Nat} {e : Int}
    (h : ∃ k < steps, (c.onGrid tie (e - (k : Nat))).isSome) :
    c.contains (c.firstOnGrid tie steps e).toRat := by
  induction steps generalizing e with
  | zero =>
      obtain ⟨k, hk, -⟩ := h
      omega
  | succ steps ih =>
      rw [firstOnGrid]
      cases hgrid : c.onGrid tie e with
      | some d => exact contains_of_onGrid hgrid
      | none =>
          obtain ⟨k, hk, hsome⟩ := h
          cases k with
          | zero =>
              rw [Nat.cast_zero, sub_zero, hgrid] at hsome
              cases hsome
          | succ k =>
              refine ih ⟨k, by omega, ?_⟩
              rw [show e - 1 - (k : Nat) = e - ((k + 1 : Nat) : Int) by push_cast; ring]
              exact hsome

theorem coarsest_le {q : Rat} (hq : 0 < q) : (10 : Rat) ^ coarsest q ≤ 10 * q := by
  have hnum : 0 < q.num := Rat.num_pos.2 hq
  have hden : 0 < q.den := q.den_pos
  have ha : 0 < q.num.natAbs := Int.natAbs_pos.2 (by omega)
  have hvalue : q = (q.num.natAbs : Rat) / q.den := by
    conv_lhs => rw [← Rat.num_div_den q]
    have habs : ((q.num.natAbs : Nat) : Int) = q.num := Int.natAbs_of_nonneg hnum.le
    rw [← Int.cast_natCast q.num.natAbs, habs]
  have ha' : (0 : Rat) < q.num.natAbs := by exact_mod_cast ha
  have hden' : (0 : Rat) < q.den := by exact_mod_cast hden
  unfold coarsest
  dsimp only
  split
  · rename_i hle
    have hpos : 0 < q.num.natAbs / q.den := Nat.div_pos hle hden
    have hlength := ten_pow_length_le hpos
    have hlen : 0 < (Nat.toDigits 10 (q.num.natAbs / q.den)).length := Nat.length_toDigits_pos
    generalize (Nat.toDigits 10 (q.num.natAbs / q.den)).length = len at *
    obtain ⟨k, rfl⟩ : ∃ k, len = k + 1 := ⟨len - 1, by omega⟩
    have hquotient : ((q.num.natAbs / q.den : Nat) : Rat) ≤ q.num.natAbs / q.den := Nat.cast_div_le
    rw [← hvalue] at hquotient
    have hcast : ((10 ^ k : Nat) : Rat) ≤ (q.num.natAbs / q.den : Nat) := by
      exact_mod_cast hlength
    rw [zpow_natCast, pow_succ]
    push_cast at hcast hquotient
    linarith
  · have hlength := lt_ten_pow_length (q.den / q.num.natAbs)
    generalize (Nat.toDigits 10 (q.den / q.num.natAbs)).length = len at *
    have hlt : q.den < 10 ^ len * q.num.natAbs := (Nat.div_lt_iff_lt_mul ha).1 hlength
    have hpow : (0 : Rat) < 10 ^ len := by positivity
    have hsmall : 1 / (10 : Rat) ^ len ≤ q := by
      rw [hvalue, div_le_div_iff₀ hpow hden']
      have hcast : (q.den : Rat) < 10 ^ len * q.num.natAbs := by exact_mod_cast hlt
      linarith
    rw [zpow_sub₀ (by norm_num), zpow_one, zpow_natCast]
    calc (10 : Rat) / 10 ^ len = 10 * (1 / 10 ^ len) := by ring
      _ ≤ 10 * q := by gcongr

variable {f : Format} {m : Nat} {e : Int}

theorem value_ofScaled : (ofScaled f m e).value = m * 2 ^ e := Binary.scaled_eq m e

/-- The shortest decimal for a number is read back as that number. -/
theorem contains_shortest (hm : 0 < m) (h : f.Canonical m e) (tie : Tie) :
    (ofScaled f m e).contains (shortest f tie m e).toRat := by
  have hpow : (0 : Rat) < 2 ^ e := by positivity
  have hm' : (0 : Rat) < m := by exact_mod_cast hm
  have hfits : (m : Rat) < 2 ^ f.precision := by exact_mod_cast h.fits
  have hvalue : (0 : Rat) < m * 2 ^ e := by positivity
  refine contains_firstOnGrid ⟨f.precision + 2, by omega, ?_⟩
  refine onGrid_isSome tie ?_ ?_ ?_
  · rw [value_ofScaled]
    exact hvalue.le
  · have hcoarsest := coarsest_le hvalue
    rw [value_ofScaled]
    have hfive : (4 : Rat) ≤ 10 * 5 ^ f.precision := by
      have : (1 : Rat) ≤ 5 ^ f.precision := one_le_pow₀ (by norm_num)
      linarith
    have hunit : (10 : Rat) ^ (coarsest ((m : Rat) * 2 ^ e) - ((f.precision + 2 : Nat) : Int)) ≤
        1 / 4 * 2 ^ e := by
      rw [zpow_sub₀ (by norm_num), zpow_natCast, div_le_iff₀ (by positivity)]
      calc (10 : Rat) ^ coarsest ((m : Rat) * 2 ^ e) ≤ 10 * (m * 2 ^ e) := hcoarsest
        _ ≤ 10 * (2 ^ f.precision * 2 ^ e) := by gcongr
        _ ≤ 1 / 4 * 2 ^ e * 10 ^ (f.precision + 2) := by
            have hten : (10 : Rat) ^ f.precision = 2 ^ f.precision * 5 ^ f.precision := by
              rw [← mul_pow]
              norm_num
            rw [pow_add, hten]
            have hpos : (0 : Rat) < 2 ^ f.precision * 2 ^ e := by positivity
            nlinarith
    have hlow := low_ofScaled_le (f := f) (m := m) (e := e)
    linarith
  · rw [value_ofScaled, high_ofScaled]
    linarith

end Catchment

namespace Binary

variable {f : Format}

/-- A decimal that is not below a positive number by more than half a step has no exponent that is too
small to be read. -/
theorem minExponent_le_of_le (hf : f.Ample) {m : Nat} {e : Int} (hm : 0 < m) (h : f.Canonical m e)
    {n len : Nat} {k : Int} (hlength : n < 10 ^ len)
    (hhalf : ((m : Rat) - 1 / 2) * 2 ^ e ≤ n * 10 ^ k) : f.minExponent ≤ len + k := by
  by_contra hlt
  rw [not_le] at hlt
  have hpow : (0 : Rat) < 2 ^ e := by positivity
  have hten : (0 : Rat) < 10 ^ k := by positivity
  have hm' : (1 : Rat) ≤ m := by exact_mod_cast hm
  have hupper : (n : Rat) * 10 ^ k < 10 ^ ((len : Int) + k) := by
    rw [zpow_add₀ (by norm_num), zpow_natCast]
    have hcast : (n : Rat) < 10 ^ len := by exact_mod_cast hlength
    gcongr
  have hfractions := hf.fractions
  have hpositive := hf.precision_pos
  obtain ⟨x, hx⟩ : ∃ x : Nat, f.minExponent - 1 = -(x : Int) :=
    ⟨(1 - f.minExponent).toNat, by omega⟩
  have htens : (10 : Rat) ^ ((len : Int) + k) ≤ 10 ^ (f.minExponent - 1) :=
    zpow_le_zpow_right₀ (by norm_num) (by omega)
  have htwos : (10 : Rat) ^ (f.minExponent - 1) ≤ 2 ^ (f.minExponent - 1) := by
    rw [hx, zpow_neg, zpow_neg, zpow_natCast, zpow_natCast]
    gcongr
    norm_num
  have hleast : (2 : Rat) ^ (f.minExponent - 1) ≤ 2 ^ (e - 1) :=
    zpow_le_zpow_right₀ (by norm_num) (by have := h.least; omega)
  have hunit : (2 : Rat) ^ (e - 1) = 2 ^ e / 2 := by rw [zpow_sub_one₀ two_ne_zero]; ring
  nlinarith

/-- A decimal that is not above a number by more than half a step has no exponent that is too large to
be read. -/
theorem le_maxExponent_of_le (hf : f.Ample) {m : Nat} {e : Int} (h : f.Canonical m e)
    {n len : Nat} {k : Int} (hlen : 0 < len) (hlength : 10 ^ (len - 1) ≤ n)
    (hhalf : (n : Rat) * 10 ^ k ≤ (m + 1 / 2) * 2 ^ e) :
    (len : Int) + k ≤ f.maxExponent + f.precision := by
  by_contra hlt
  rw [not_le] at hlt
  have hpow : (0 : Rat) < 2 ^ e := by positivity
  have hten : (0 : Rat) < 10 ^ k := by positivity
  have hlower : (10 : Rat) ^ ((len : Int) - 1 + k) ≤ n * 10 ^ k := by
    rw [zpow_add₀ (by norm_num), show (len : Int) - 1 = ((len - 1 : Nat) : Int) by omega,
      zpow_natCast]
    have hcast : (10 : Rat) ^ (len - 1) ≤ n := by exact_mod_cast hlength
    gcongr
  have hwholes := hf.wholes
  obtain ⟨x, hx⟩ : ∃ x : Nat, f.maxExponent + f.precision = (x : Int) :=
    ⟨(f.maxExponent + f.precision).toNat, by omega⟩
  have htens : (10 : Rat) ^ (x : Int) ≤ 10 ^ ((len : Int) - 1 + k) :=
    zpow_le_zpow_right₀ (by norm_num) (by omega)
  have htwos : (2 : Rat) ^ (x : Int) ≤ 10 ^ (x : Int) := by
    rw [zpow_natCast, zpow_natCast]
    gcongr
    norm_num
  have hgreatest : (2 : Rat) ^ f.precision * 2 ^ e ≤ 2 ^ (x : Int) := by
    rw [← zpow_natCast, ← zpow_add₀ two_ne_zero]
    exact zpow_le_zpow_right₀ (by norm_num) (by have := h.greatest; omega)
  have hfits : (m : Rat) + 1 ≤ 2 ^ f.precision := by exact_mod_cast h.fits
  nlinarith

/-- A decimal as a fraction. -/
theorem cast_div_pow_ten (n : Nat) (k : Int) :
    ((n * 10 ^ k.toNat : Nat) : Rat) / (10 ^ (-k).toNat : Nat) = n * 10 ^ k := by
  rw [zpow_eq_div]
  push_cast
  ring

theorem ofDecimal_of_contains (hf : f.Ample) {m : Nat} {e : Int} (hm : 0 < m)
    (h : f.Canonical m e) {n : Nat} {k : Int}
    (hq : (Catchment.ofScaled f m e).contains (n * 10 ^ k)) (negative : Bool) :
    ofDecimal f negative n k = .finite negative m e h := by
  obtain ⟨hlow, hhigh⟩ := Catchment.le_of_contains hq
  have hhalf : (m - 1 / 2) * 2 ^ e ≤ (n : Rat) * 10 ^ k := Catchment.le_low_ofScaled.trans hlow
  rw [Catchment.high_ofScaled] at hhigh
  have hn : 0 < n := by
    by_contra hzero
    have hpow : (0 : Rat) < 2 ^ e := by positivity
    have hm' : (1 : Rat) ≤ m := by exact_mod_cast hm
    rw [show n = 0 by omega] at hhalf
    push_cast at hhalf
    nlinarith
  have hleast := minExponent_le_of_le hf hm h (lt_ten_pow_length n) hhalf
  have hgreatest :=
    le_maxExponent_of_le hf h Nat.length_toDigits_pos (ten_pow_length_le hn) hhigh
  unfold ofDecimal
  dsimp only
  generalize (Nat.toDigits 10 n).length = len at *
  have hdigits : ¬(n = 0 || decide ((len : Int) + k < f.minExponent)) = true := by
    rw [Bool.or_eq_true, decide_eq_true_iff, decide_eq_true_iff, not_or]
    exact ⟨by omega, hleast.not_gt⟩
  rw [if_neg hdigits, if_neg hgreatest.not_gt]
  refine ofFraction_of_contains hf.precision_pos h (Nat.mul_pos hn (Nat.pow_pos (by decide)))
    (Nat.pow_pos (by decide)) ?_ negative
  exact (cast_div_pow_ten n k).symm ▸ hq

theorem ofDecimal_zero (negative : Bool) (k : Int) :
    ofDecimal f negative 0 k = .finite negative 0 f.minExponent f.canonical_zero := by
  simp [ofDecimal]

/-- Digits, and a point with more digits behind it if there are any. -/
def numeral (whole fraction : List Char) : List Char :=
  whole ++ if fraction.isEmpty then [] else '.' :: fraction

theorem readMagnitude?_numeral (f : Format) (negative : Bool) {whole fraction : List Char}
    (hwhole : ∀ c ∈ whole, c.isDigit) (hne : whole ≠ []) (hfraction : ∀ c ∈ fraction, c.isDigit) :
    readMagnitude? f negative (numeral whole fraction) =
      some (ofDecimal f negative (ofDigits (whole ++ fraction)) (0 - fraction.length)) := by
  have hhead : ∀ c ∈ (if fraction.isEmpty then [] else '.' :: fraction).head?,
      c.isDigit = false := by
    split
    · exact fun c hc => absurd hc (Option.not_mem_none c)
    · rintro c ⟨⟩
      decide
  obtain ⟨htake, hdrop⟩ := Text.takeWhile_run hwhole hhead
  have hempty : whole.isEmpty = false := by simpa using hne
  have hword : ∀ c ∈ digitChars, c.toLower ≠ 'n' ∧ c.toLower ≠ 'i' :=
    List.all_iff_forall_prop.1 (by decide)
  obtain ⟨c, rest, rfl⟩ := List.exists_cons_of_ne_nil hne
  obtain ⟨hn, hi⟩ := hword c (mem_digitChars (hwhole c List.mem_cons_self))
  have hnan : ((numeral (c :: rest) fraction).map Char.toLower == ['n', 'a', 'n']) = false := by
    simp [numeral, hn]
  have hinf : ((numeral (c :: rest) fraction).map Char.toLower == ['i', 'n', 'f'] ||
      (numeral (c :: rest) fraction).map Char.toLower ==
        ['i', 'n', 'f', 'i', 'n', 'i', 't', 'y']) = false := by
    simp [numeral, hi]
  unfold readMagnitude?
  simp only [hnan, hinf, Bool.false_eq_true, if_false]
  rw [numeral, htake, hdrop]
  by_cases hnone : fraction.isEmpty
  · rw [if_pos hnone, List.isEmpty_iff.1 hnone]
    simp only [hempty, Bool.false_and, Bool.false_eq_true, if_false, readExponent?, Option.map_some]
  · have hend : ∀ c ∈ ([] : List Char).head?, c.isDigit = false := by simp
    obtain ⟨htake', hdrop'⟩ := Text.takeWhile_run hfraction hend
    rw [List.append_nil] at htake' hdrop'
    rw [if_neg hnone]
    simp only [htake', hdrop', hempty, Bool.false_and, Bool.false_eq_true, if_false, readExponent?,
      Option.map_some]

end Binary

/-- A decimal is written as a numeral of its value. -/
theorem plain_digits (d : Decimal) : ∃ whole fraction,
    NumeralStyle.plain.digits d = Binary.numeral whole fraction ∧ whole ≠ [] ∧
      (∀ c ∈ whole, c.isDigit) ∧ (∀ c ∈ fraction, c.isDigit) ∧
      (ofDigits (whole ++ fraction) : Rat) * 10 ^ (0 - (fraction.length : Int)) = d.toRat := by
  have hne : Nat.toDigits 10 d.digits ≠ [] := Nat.toDigits_ne_nil
  have hdigits : ∀ c ∈ Nat.toDigits 10 d.digits, c.isDigit := fun c => isDigit_of_mem_toDigits
  have hvalue := ofDigits_toDigits d.digits
  have hzeros (k : Nat) : ∀ c ∈ List.replicate k '0', c.isDigit := by
    intro c hc
    rw [List.eq_of_mem_replicate hc]
    decide
  have happend {xs ys : List Char} (hxs : ∀ c ∈ xs, c.isDigit) (hys : ∀ c ∈ ys, c.isDigit) :
      ∀ c ∈ xs ++ ys, c.isDigit := by
    intro c hc
    exact (List.mem_append.1 hc).elim (hxs c) (hys c)
  unfold NumeralStyle.digits
  rw [Decimal.toRat, powerOfTen_eq]
  simp only [NumeralStyle.isPositional, NumeralStyle.plain, if_true, Bool.false_eq_true, if_false,
    List.append_nil]
  generalize Nat.toDigits 10 d.digits = ds at *
  by_cases hwhole : 0 ≤ d.exponent
  · rw [if_pos hwhole]
    refine ⟨ds ++ List.replicate d.exponent.toNat '0', [], by simp [Binary.numeral],
      List.append_ne_nil_of_left_ne_nil hne _, happend hdigits (hzeros _), by simp, ?_⟩
    have hexponent : (10 : Rat) ^ d.exponent = 10 ^ d.exponent.toNat := by
      rw [← zpow_natCast, Int.toNat_of_nonneg hwhole]
    rw [List.append_nil, ofDigits_append_zeros, hvalue, hexponent]
    push_cast
    simp [mul_comm]
  · rw [if_neg hwhole]
    by_cases hpoint : 0 < (ds.length : Int) + d.exponent
    · rw [if_pos hpoint]
      have hdrop : ds.drop ((ds.length : Int) + d.exponent).toNat ≠ [] := by
        rw [Ne, List.drop_eq_nil_iff]
        omega
      have htake : ds.take ((ds.length : Int) + d.exponent).toNat ≠ [] := by
        rw [Ne, List.take_eq_nil_iff, not_or]
        exact ⟨by omega, hne⟩
      obtain ⟨k, hk⟩ : ∃ k, ((ds.length : Int) + d.exponent).toNat = k := ⟨_, rfl⟩
      rw [hk] at hdrop htake ⊢
      refine ⟨ds.take k, ds.drop k, ?_, htake, fun c hc => hdigits c (List.mem_of_mem_take hc),
        fun c hc => hdigits c (List.mem_of_mem_drop hc), ?_⟩
      · rw [Binary.numeral, if_neg (by simpa using hdrop)]
      · rw [List.take_append_drop, hvalue, List.length_drop]
        congr 2
        omega
    · rw [if_neg hpoint]
      refine ⟨['0'], List.replicate (-((ds.length : Int) + d.exponent)).toNat '0' ++ ds,
        by simp [Binary.numeral, hne], by simp, by simp, happend (hzeros _) hdigits, ?_⟩
      have hzero : ofDigits ('0' :: (List.replicate (-((ds.length : Int) + d.exponent)).toNat '0' ++
          ds)) = d.digits := by
        rw [← List.cons_append, ← List.replicate_succ, ofDigits_zeros_append, hvalue]
      rw [List.singleton_append, hzero, List.length_append, List.length_replicate]
      congr 2
      push_cast
      omega

namespace Binary

variable {f : Format}

theorem read?_numeral (f : Format) {whole : List Char} (hwhole : ∀ c ∈ whole, c.isDigit)
    (hne : whole ≠ []) (fraction : List Char) :
    read? f (numeral whole fraction) = readMagnitude? f false (numeral whole fraction) := by
  obtain ⟨c, rest, rfl⟩ := List.exists_cons_of_ne_nil hne
  have hsigns : ∀ c ∈ digitChars, c ≠ '-' ∧ c ≠ '+' := List.all_iff_forall_prop.1 (by decide)
  obtain ⟨hminus, hplus⟩ := hsigns c (mem_digitChars (hwhole c List.mem_cons_self))
  rw [numeral, List.cons_append, read?]
  · exact fun rest heq => hminus (List.cons.inj heq).1
  · exact fun rest heq => hplus (List.cons.inj heq).1

/-- The digits of what is written for a finite number. -/
theorem text_eq (negative : Bool) {m : Nat} {e : Int} (h : f.Canonical m e) :
    (finite negative m e h).text.toList = (if negative then ['-'] else []) ++
      NumeralStyle.plain.digits (if m = 0 then ⟨0, 0⟩ else shortest f .up m e) :=
  String.toList_ofList

theorem mem_text {x : Binary f} (hx : x.isFinite) {c : Char} (hc : c ∈ x.text.toList) :
    c.isDigit ∨ c = '.' ∨ c = '-' := by
  cases x with
  | nan negative => cases hx
  | infinite negative => cases hx
  | finite negative m e h =>
      rw [text_eq] at hc
      obtain ⟨whole, fraction, htext, -, hwhole, hfraction, -⟩ :=
        plain_digits (if m = 0 then ⟨0, 0⟩ else shortest f .up m e)
      rw [htext, numeral] at hc
      rcases List.mem_append.1 hc with hc | hc
      · split at hc
        · exact .inr (.inr (List.mem_singleton.1 hc))
        · exact absurd hc List.not_mem_nil
      rcases List.mem_append.1 hc with hc | hc
      · exact .inl (hwhole c hc)
      · split at hc
        · exact absurd hc List.not_mem_nil
        · rcases List.mem_cons.1 hc with rfl | hc
          · exact .inr (.inl rfl)
          · exact .inl (hfraction c hc)

/-- All characters of what is written for a number. -/
theorem mem_numberChars {x : Binary f} {c : Char} (hc : c ∈ x.text.toList) :
    c ∈ numberChars := by
  by_cases hx : x.isFinite
  · rcases mem_text hx hc with hc | rfl | rfl
    · exact List.mem_append_right _ (mem_digitChars hc)
    · decide
    · decide
  · have hwords : ∀ c ∈ "NaN".toList ++ "inf".toList ++ "-inf".toList, c ∈ numberChars :=
      List.all_iff_forall_prop.1 (by decide)
    refine hwords c ?_
    cases x with
    | finite negative m e h => exact absurd rfl hx
    | nan negative => exact List.mem_append_left _ (List.mem_append_left _ hc)
    | infinite negative =>
        cases negative with
        | false => exact List.mem_append_left _ (List.mem_append_right _ hc)
        | true => exact List.mem_append_right _ hc

theorem text_ne_nil {x : Binary f} (hx : x.isFinite) : x.text.toList ≠ [] := by
  cases x with
  | nan negative => cases hx
  | infinite negative => cases hx
  | finite negative m e h =>
      rw [text_eq]
      obtain ⟨whole, fraction, htext, hne, -⟩ :=
        plain_digits (if m = 0 then ⟨0, 0⟩ else shortest f .up m e)
      rw [htext]
      exact List.append_ne_nil_of_right_ne_nil _ (List.append_ne_nil_of_left_ne_nil hne _)

/-- What is written for a finite number is read, in any format, as the decimal that it was written
with. -/
theorem exists_decimal_of_text (g : Format) (negative : Bool) {m : Nat} {e : Int}
    (h : f.Canonical m e) : ∃ (n : Nat) (k : Int),
      read? g (finite negative m e h).text.toList = some (ofDecimal g negative n k) ∧
        (n : Rat) * 10 ^ k = (if m = 0 then ⟨0, 0⟩ else shortest f .up m e : Decimal).toRat := by
  rw [text_eq]
  obtain ⟨whole, fraction, htext, hne, hwhole, hfraction, hvalue⟩ :=
    plain_digits (if m = 0 then ⟨0, 0⟩ else shortest f .up m e)
  refine ⟨ofDigits (whole ++ fraction), 0 - (fraction.length : Int), ?_, hvalue⟩
  have hmagnitude := readMagnitude?_numeral g negative hwhole hne hfraction
  rw [htext]
  cases negative with
  | true => exact hmagnitude
  | false => rw [if_neg (by decide), List.nil_append, read?_numeral g hwhole hne, hmagnitude]

theorem read?_text (hf : f.Ample) {x : Binary f} (hx : x.isFinite) :
    read? f x.text.toList = some x := by
  cases x with
  | nan negative => cases hx
  | infinite negative => cases hx
  | finite negative m e h =>
      obtain ⟨n, k, hread, hvalue⟩ := exists_decimal_of_text f negative h
      rw [hread]
      congr 1
      by_cases hm : m = 0
      · subst hm
        have hleast : e = f.minExponent := by
          refine h.leading.resolve_right fun hle => ?_
          exact absurd (Nat.pow_pos (by decide : 0 < 2)) (Nat.not_lt.2 hle)
        subst hleast
        have hzero : n = 0 := by
          have hten : (0 : Rat) < 10 ^ k := by positivity
          rw [if_pos rfl, Decimal.toRat, Nat.cast_zero, zero_mul, mul_eq_zero] at hvalue
          exact_mod_cast hvalue.resolve_right hten.ne'
        rw [hzero, ofDecimal_zero]
      · rw [if_neg hm] at hvalue
        refine ofDecimal_of_contains hf (Nat.pos_of_ne_zero hm) h ?_ negative
        rw [hvalue]
        exact Catchment.contains_shortest (Nat.pos_of_ne_zero hm) h .up

theorem readFinite?_text (hf : f.Ample) {x : Binary f} (hx : x.isFinite) :
    readFinite? f x.text.toList = some x := by
  rw [readFinite?, read?_text hf hx, Option.filter_some, if_pos hx]

theorem readMagnitude?_toDigits (f : Format) (negative : Bool) (n : Nat) :
    readMagnitude? f negative (Nat.toDigits 10 n) = some (ofDecimal f negative n 0) := by
  have hdigits : ∀ c ∈ Nat.toDigits 10 n, c.isDigit := fun c => isDigit_of_mem_toDigits
  have hnone : ∀ c ∈ ([] : List Char), c.isDigit := by simp
  have h := readMagnitude?_numeral f negative hdigits Nat.toDigits_ne_nil hnone
  simpa [numeral, ofDigits_toDigits] using h

/-- A whole number with digits that the range of the format leaves room for is rounded as it stands. -/
theorem ofDecimal_whole (hf : f.Ample) (negative : Bool) {n : Nat}
    (hn : ((Nat.toDigits 10 n).length : Int) ≤ f.maxExponent) :
    ofDecimal f negative n 0 = ofFraction f negative n 1 := by
  by_cases hzero : n = 0
  · rw [hzero, ofDecimal_zero, ofFraction_zero]
  · have hp := hf.precision_pos
    have hfractions := hf.fractions
    unfold ofDecimal
    dsimp only
    generalize (Nat.toDigits 10 n).length = len at hn ⊢
    have hdigits : ¬(n = 0 || decide ((len : Int) + 0 < f.minExponent)) = true := by
      rw [Bool.or_eq_true, decide_eq_true_iff, decide_eq_true_iff, not_or]
      exact ⟨hzero, by omega⟩
    rw [if_neg hdigits, if_neg (by omega)]
    simp

/-- A whole number in the range of the format is read as the nearest number. -/
theorem readFinite?_toDigits (hf : f.Ample) {n : Nat}
    (hn : ((Nat.toDigits 10 n).length : Int) ≤ f.maxExponent) (hfinite : (ofNat f n).isFinite) :
    readFinite? f (Nat.toDigits 10 n) = some (ofNat f n) := by
  have hread : read? f (Nat.toDigits 10 n) = readMagnitude? f false (Nat.toDigits 10 n) := by
    have hdigits : ∀ c ∈ Nat.toDigits 10 n, c.isDigit := fun c => isDigit_of_mem_toDigits
    simpa [numeral] using read?_numeral f hdigits Nat.toDigits_ne_nil []
  rw [readFinite?, hread, readMagnitude?_toDigits, ofDecimal_whole hf false hn, ← ofNat,
    Option.filter_some, if_pos hfinite]

/-- A negative whole number that fits the significand is read as itself. -/
theorem readFinite?_negative (hf : f.Ample) {n : Nat} (hlt : n < 2 ^ f.precision)
    (hn : ((Nat.toDigits 10 n).length : Int) ≤ f.maxExponent) :
    ∃ x, readFinite? f ('-' :: Nat.toDigits 10 n) = some x ∧ x.isFinite ∧ x.toRat = -(n : Rat) := by
  obtain ⟨hfinite, hvalue⟩ := ofFraction_natCast hf (hf.holds hlt) true
  refine ⟨ofFraction f true n 1, ?_, hfinite, hvalue⟩
  rw [readFinite?, read?, readMagnitude?_toDigits, ofDecimal_whole hf true hn, Option.filter_some,
    if_pos hfinite]

end Binary

end StimOverlay.Numeric
