import StimOverlay.Circuit.Rectification
import StimOverlay.Proofs.Circuit.IntegerBoards
import StimOverlay.Proofs.Numeric.ExactArithmetic
import StimOverlay.Proofs.Record.GroupedLists

/-! Exact rectification. On coordinates that are whole numbers, or halves of them, all arithmetic of a
rectification is exact: the grid step, the corner and the colours are those of a board of integers, and
every point is moved to the target of its field. -/

namespace StimOverlay

open Numeric Board

/-- The integers whose sums and differences stay exact. -/
def Small (a : Int) : Prop := a.natAbs < 2 ^ 40

namespace Point

/-- A point has the integer coordinates `z`, counted in units of `2 ^ (-u)`. -/
structure On (u : Nat) (p : Point) (z : Int × Int) : Prop where
  x : p.x.Is (z.1 / 2 ^ u)
  y : p.y.Is (z.2 / 2 ^ u)

/-- The coordinates of a point in units of `2 ^ (-u)`. -/
def units (u : Nat) (p : Point) : Int × Int := ((p.x.toRat * 2 ^ u).num, (p.y.toRat * 2 ^ u).num)

theorem On.units_eq {u : Nat} {p : Point} {z : Int × Int} (h : p.On u z) : p.units u = z := by
  have hpow : (2 : Rat) ^ u ≠ 0 := by positivity
  rw [units, h.x.value, h.y.value, div_mul_cancel₀ _ hpow, div_mul_cancel₀ _ hpow, Rat.num_intCast,
    Rat.num_intCast]

/-- A point on the grid of units, not far from the origin. -/
structure OnGrid (u : Nat) (p : Point) : Prop where
  on : p.On u (p.units u)
  small : Small (p.units u).1 ∧ Small (p.units u).2

end Point

namespace Circuit

variable {u : Nat} {p : Point} {z : Int × Int} {a b : Int} {s : Binary64}

theorem fits_units (hu : u ≤ 16) : Format.binary64.minExponent + Format.binary64.precision + u ≤ 1 := by
  change (-1074 : Int) + 53 + u ≤ 1
  omega

theorem has_units (hu : u ≤ 16) (ha : a.natAbs < 2 ^ 53) : Format.binary64.Has (a / 2 ^ u) :=
  Binary.has_dyadic Format.ample_binary64 ha (fits_units hu)

theorem is_ofNat {n : Nat} (hn : n < 2 ^ 53) : (Binary.ofNat .binary64 n).Is n :=
  have h := Binary.toRat_ofNat Format.ample_binary64 hn
  ⟨h.1, h.2⟩

theorem is_half : (Binary.ofDecimal .binary64 false 5 (-1)).Is (1 / 2) :=
  ⟨by decide +kernel, by decide +kernel⟩

theorem is_finestStep : finestStep.Is (1 / 256) := ⟨by decide +kernel, by decide +kernel⟩

/-- Differences of coordinates in units of `2 ^ (-u)`. -/
theorem is_sub (hu : u ≤ 7) {x y : Binary64} (hx : x.Is (a / 2 ^ u)) (hy : y.Is (b / 2 ^ u))
    (h : (a - b).natAbs < 2 ^ 53) : (x - y).Is ((a - b : Int) / 2 ^ u) := by
  have hvalue : (a : Rat) / 2 ^ u - b / 2 ^ u = (a - b : Int) / 2 ^ u := by
    rw [← sub_div, Int.cast_sub]
  rw [← hvalue]
  exact hx.sub hy (hvalue ▸ has_units (by omega) h)

theorem is_add (hu : u ≤ 7) {x y : Binary64} (hx : x.Is (a / 2 ^ u)) (hy : y.Is (b / 2 ^ u))
    (h : (a + b).natAbs < 2 ^ 53) : (x + y).Is ((a + b : Int) / 2 ^ u) := by
  have hvalue : (a : Rat) / 2 ^ u + b / 2 ^ u = (a + b : Int) / 2 ^ u := by
    rw [← add_div, Int.cast_add]
  rw [← hvalue]
  exact hx.add hy (hvalue ▸ has_units (by omega) h)

theorem isZero_rem_iff (hu : u ≤ 7) {x y : Binary64} {w : Nat} (hx : x.Is (a / 2 ^ u)) (hy : y.Is (w / 2 ^ u))
    (hw : 0 < w) (ha : a.natAbs < 2 ^ 53) : (x.rem y).isZero ↔ (w : Int) ∣ a :=
  Binary.isZero_rem Format.ample_binary64 hx hy hw ha (fits_units (by omega))

theorem is_neg {x : Binary64} (hx : x.Is (a / 2 ^ u)) : (-x).Is ((-a : Int) / 2 ^ u) := by
  rw [Int.cast_neg, neg_div]
  exact hx.neg

/-- The test that a grid step has to pass for a point. -/
def fits (p : Point) (s : Binary64) : Bool :=
  (p.x.rem s).isZero && (p.y.rem s).isZero || !(s.compare? finestStep == some .gt)

theorem finestStep_lt (hu : u ≤ 7) {g : Nat} (hg : 0 < g) (hs : s.Is (g / 2 ^ u)) :
    s.compare? finestStep = some .gt := by
  have hlt : (1 : Rat) / 256 < g / 2 ^ u := by
    have hpow : (2 : Rat) ^ u ≤ 2 ^ 7 := by gcongr; norm_num
    have hone : (1 : Rat) ≤ g := by exact_mod_cast hg
    rw [div_lt_div_iff₀ (by norm_num) (by positivity)]
    linarith
  rw [hs.compare? is_finestStep, if_neg hlt.not_gt, if_neg hlt.ne']

theorem fits_iff (hu : u ≤ 7) (hp : p.On u z) (hz : Small z.1 ∧ Small z.2) {g : Nat} (hg : 0 < g)
    (hs : s.Is (g / 2 ^ u)) : fits p s ↔ g ∣ Int.gcd z.1 z.2 := by
  have hsmall {a : Int} (ha : Small a) : a.natAbs < 2 ^ 53 := Nat.lt_trans ha (by decide)
  rw [fits, finestStep_lt hu hg hs, Int.dvd_gcd_iff]
  simp only [beq_self_eq_true, Bool.not_true, Bool.or_false, Bool.and_eq_true]
  rw [isZero_rem_iff hu hp.x hs hg (hsmall hz.1), isZero_rem_iff hu hp.y hs hg (hsmall hz.2)]

/-- The step is halved until it divides the coordinates. -/
theorem is_coarsestStep (hu : u ≤ 7) (hp : p.On u z) (hz : Small z.1 ∧ Small z.2) {k n : Nat} (hk : k ≤ n)
    (hlarge : k < 53) (hs : s.Is ((2 ^ k : Nat) / 2 ^ u)) :
    (coarsestStep (fits p) n s).Is ((Nat.gcd (2 ^ k) (Int.gcd z.1 z.2) : Nat) / 2 ^ u) := by
  -- One unit divides all coordinates, so that there are more halvings left than are needed.
  induction n generalizing k s with
  | zero =>
      rw [Nat.le_zero.1 hk] at hs ⊢
      rwa [Nat.pow_zero, Nat.gcd_one_left, ← Nat.pow_zero 2]
  | succ n ih =>
      have hfits := fits_iff hu hp hz (Nat.pow_pos Nat.zero_lt_two) hs
      rw [coarsestStep]
      split_ifs with h
      · rwa [Nat.gcd_eq_left (hfits.1 h)]
      · rw [hfits] at h
        cases k with
        | zero => exact absurd (Nat.one_dvd _) h
        | succ k =>
            have hvalue : ((2 ^ (k + 1) : Nat) : Rat) / 2 ^ u / (2 : Nat) = (2 ^ k : Nat) / 2 ^ u := by
              rw [Nat.pow_succ]
              push_cast
              field_simp
            rw [gcd_two_pow_succ h]
            refine ih (by omega) (by omega) ?_
            rw [← hvalue]
            refine hs.div (is_ofNat (by norm_num)) (by norm_num) ?_
            rw [hvalue, ← Int.cast_natCast]
            refine has_units (by omega) ?_
            rw [Int.natAbs_natCast]
            exact Nat.pow_lt_pow_right (by decide) (by omega)

/-- The integer coordinates of some points. -/
abbrev board (u : Nat) (ps : List Point) : List (Int × Int) := ps.map (Point.units u)

variable {c : Circuit} {ps : List Point}

theorem is_gridStep (hu : u ≤ 7) (h : ∀ p ∈ ps, p.OnGrid u) :
    (gridStep ps).Is (step (2 ^ (8 + u)) (board u ps) / 2 ^ u) := by
  have hfold : ∀ {k : Nat} {s : Binary64}, k ≤ 8 + u → s.Is ((2 ^ k : Nat) / 2 ^ u) →
      (ps.foldl (fun s p => coarsestStep (fits p) 16 s) s).Is (step (2 ^ k) (board u ps) / 2 ^ u) := by
    induction ps with
    | nil => exact fun _ hs => hs
    | cons p rest ih =>
        intro k s hk hs
        obtain ⟨hp, hrest⟩ := List.forall_mem_cons.1 h
        have hnext := is_coarsestStep (n := 16) hu hp.on hp.small (by omega) (by omega) hs
        obtain ⟨j, hj, heq⟩ := (Nat.dvd_prime_pow Nat.prime_two).1
          (Nat.gcd_dvd_left (2 ^ k) (Int.gcd (p.units u).1 (p.units u).2))
        rw [heq] at hnext
        rw [List.foldl_cons, board, List.map_cons, step, List.foldl_cons, heq]
        exact ih hrest (by omega) hnext
  refine hfold (Nat.le_refl _) ?_
  have hvalue : ((2 ^ (8 + u) : Nat) : Rat) / 2 ^ u = (256 : Nat) := by
    rw [Nat.pow_add]
    push_cast
    field_simp
  rw [hvalue]
  exact is_ofNat (by norm_num)

/-- The first one of the least numbers. -/
def leastOf (xs : List Binary64) : Binary64 := xs.foldl Binary.least (.infinite false)

/-- The lower left corner of some points. -/
def cornerOf (ps : List Point) : Point := ⟨leastOf (ps.map (·.x)), leastOf (ps.map (·.y))⟩

theorem foldl_least (ps : List Point) (m : Point) :
    ps.foldl (fun m p => ⟨m.x.least p.x, m.y.least p.y⟩) m =
      ⟨(ps.map (·.x)).foldl Binary.least m.x, (ps.map (·.y)).foldl Binary.least m.y⟩ := by
  induction ps generalizing m with
  | nil => rfl
  | cons p rest ih => exact ih _

/-- Two ways to order some points alike have their first least value at the same point. -/
theorem exists_leastOf {f f' : Point → Binary64} {v v' : Point → Int} {w : Nat} (hne : ps ≠ [])
    (hf : ∀ p ∈ ps, (f p).Is (v p / 2 ^ u)) (hf' : ∀ p ∈ ps, (f' p).Is (v' p / 2 ^ w))
    (hlt : ∀ p ∈ ps, ∀ q ∈ ps, v p < v q ↔ v' p < v' q) :
    ∃ q ∈ ps, (∀ p ∈ ps, v q ≤ v p) ∧ leastOf (ps.map f) = f q ∧ leastOf (ps.map f') = f' q := by
  -- Both searches are at the same point all the time, since the comparisons with the next one agree.
  have hfold : ∀ {rest : List Point} {q : Point}, q ∈ ps → rest ⊆ ps → ∃ r ∈ ps,
      v r ≤ v q ∧ (∀ p ∈ rest, v r ≤ v p) ∧ (rest.map f).foldl Binary.least (f q) = f r ∧
        (rest.map f').foldl Binary.least (f' q) = f' r := by
    intro rest
    induction rest with
    | nil => exact fun {q} hq _ => ⟨q, hq, Int.le_refl _, List.forall_mem_nil _, rfl, rfl⟩
    | cons p rest ih =>
        intro q hq hsubset
        obtain ⟨hp, hrest⟩ := List.cons_subset.1 hsubset
        have hcast {n : Nat} {a b : Int} : (a : Rat) / 2 ^ n < b / 2 ^ n ↔ a < b := by
          rw [div_lt_div_iff_of_pos_right (by positivity), Int.cast_lt]
        rw [List.map_cons, List.map_cons, List.foldl_cons, List.foldl_cons, (hf q hq).least (hf p hp),
          (hf' q hq).least (hf' p hp)]
        simp only [hcast, ← hlt p hp q hq]
        split_ifs with hless
        · obtain ⟨r, hr, hle, hall, heq⟩ := ih hp hrest
          exact ⟨r, hr, by omega, List.forall_mem_cons.2 ⟨hle, hall⟩, heq⟩
        · obtain ⟨r, hr, hle, hall, heq⟩ := ih hq hrest
          exact ⟨r, hr, hle, List.forall_mem_cons.2 ⟨by omega, hall⟩, heq⟩
  cases ps with
  | nil => exact absurd rfl hne
  | cons p rest =>
      obtain ⟨r, hr, hle, hall, heq, heq'⟩ := hfold List.mem_cons_self (List.subset_cons_self p rest)
      refine ⟨r, hr, List.forall_mem_cons.2 ⟨hle, hall⟩, ?_, ?_⟩
      · rwa [leastOf, List.map_cons, List.foldl_cons,
          Binary.least_infinite (hf p List.mem_cons_self).finite]
      · rwa [leastOf, List.map_cons, List.foldl_cons,
          Binary.least_infinite (hf' p List.mem_cons_self).finite]

theorem is_leastOf {f : Point → Binary64} {v : Point → Int} (hne : ps ≠ [])
    (hf : ∀ p ∈ ps, (f p).Is (v p / 2 ^ u)) : (leastOf (ps.map f)).Is (Board.least (ps.map v) / 2 ^ u) := by
  obtain ⟨q, hq, hle, heq, -⟩ := exists_leastOf hne hf hf fun _ _ _ _ => Iff.rfl
  rw [heq, Board.least_eq (List.mem_map_of_mem hq) (List.forall_mem_map.2 hle)]
  exact hf q hq

theorem on_cornerOf (hne : ps ≠ []) (h : ∀ p ∈ ps, p.OnGrid u) :
    (cornerOf ps).On u (corner (board u ps)) := by
  rw [corner, List.map_map, List.map_map]
  exact ⟨is_leastOf hne fun p hp => (h p hp).on.x, is_leastOf hne fun p hp => (h p hp).on.y⟩

/-- The integer board that a rectification finds: the step is `2 ^ k` units, and every point has its field. -/
structure Survey (u k : Nat) (ps : List Point) : Prop where
  fine : u ≤ 7
  points : ∀ p ∈ ps, p.OnGrid u
  coarse : k ≤ 8 + u
  step : (gridStep ps).Is ((2 ^ k : Nat) / 2 ^ u)
  cornerOn : (cornerOf ps).On u (corner (board u ps))
  small : Small (corner (board u ps)).1 ∧ Small (corner (board u ps)).2
  column : ∀ z ∈ board u ps, z.1 = (corner (board u ps)).1 +
    2 ^ k * (field (2 ^ (8 + u)) (board u ps) z).1
  row : ∀ z ∈ board u ps, z.2 = (corner (board u ps)).2 +
    2 ^ k * (field (2 ^ (8 + u)) (board u ps) z).2

theorem exists_survey (hu : u ≤ 7) (hne : ps ≠ []) (h : ∀ p ∈ ps, p.OnGrid u) : ∃ k, Survey u k ps := by
  obtain ⟨k, hk, hpow⟩ := (Nat.dvd_prime_pow Nat.prime_two).1
    (step_dvd_cap (2 ^ (8 + u)) (board u ps))
  have hstep := is_gridStep hu h
  have hspec {z : Int × Int} (hz : z ∈ board u ps) := field_spec (2 ^ (8 + u)) hz
  rw [hpow] at hstep hspec
  push_cast at hspec
  obtain ⟨y, hy, y', hy', hcorner, -⟩ :=
    exists_corner fun hnil : board u ps = [] => hne (List.map_eq_nil_iff.1 hnil)
  have hsmall : ∀ z ∈ board u ps, Small z.1 ∧ Small z.2 := List.forall_mem_map.2 fun p hp => (h p hp).small
  refine ⟨k, hu, h, hk, hstep, on_cornerOf hne h, ?_, fun z hz => (hspec hz).1, fun z hz => (hspec hz).2⟩
  rw [hcorner]
  exact ⟨(hsmall y hy).1, (hsmall y' hy').2⟩

variable {k : Nat}

theorem Survey.pow_lt (h : Survey u k ps) : 2 ^ k < 2 ^ 40 :=
  Nat.pow_lt_pow_right (by decide) (by have := h.coarse; have := h.fine; omega)

/-- A point lies on the diagonals of the corner, on both of them, when its field has their colour. -/
theorem Survey.diagonals_iff (h : Survey u k ps) (hp : p ∈ ps) :
    let f := field (2 ^ (8 + u)) (board u ps) (p.units u)
    ((diagonals (gridStep ps) (cornerOf ps) p).1 ↔ Diagonal f) ∧
      ((diagonals (gridStep ps) (cornerOf ps) p).2 ↔ Diagonal f) := by
  intro f
  obtain ⟨hon, hz1, hz2⟩ := h.points p hp
  obtain ⟨hm1, hm2⟩ := h.small
  have hu := h.fine
  have hcolumn := h.column _ (List.mem_map_of_mem hp)
  have hrow := h.row _ (List.mem_map_of_mem hp)
  have hk := h.pow_lt
  have hpos : 0 < 2 ^ k := Nat.pow_pos Nat.zero_lt_two
  unfold Small at hz1 hz2 hm1 hm2
  have hdouble : (Binary.ofNat .binary64 2 * gridStep ps).Is ((2 * 2 ^ k : Nat) / 2 ^ u) := by
    have hvalue : ((2 : Nat) : Rat) * ((2 ^ k : Nat) / 2 ^ u) = (2 * 2 ^ k : Nat) / 2 ^ u := by
      push_cast
      ring
    rw [← hvalue]
    refine (is_ofNat (by norm_num)).mul h.step ?_
    rw [hvalue, ← Int.cast_natCast]
    exact has_units (by omega) (by omega)
  have hacross := is_sub hu hon.x h.cornerOn.x (by omega)
  have hup := is_sub hu (is_add hu hacross hon.y (by omega)) h.cornerOn.y (by omega)
  have hdown := is_add hu (is_sub hu hacross hon.y (by omega)) h.cornerOn.y (by omega)
  have hsum : (p.units u).1 - (corner (board u ps)).1 + (p.units u).2 -
      (corner (board u ps)).2 = 2 ^ k * (f.1 + f.2) := by
    linarith
  have hdifference : (p.units u).1 - (corner (board u ps)).1 - (p.units u).2 +
      (corner (board u ps)).2 = 2 ^ k * (f.1 - f.2) := by
    linarith
  have hcancel (a : Int) : ((2 * 2 ^ k : Nat) : Int) ∣ 2 ^ k * a ↔ 2 ∣ a := by
    push_cast
    rw [mul_comm, mul_dvd_mul_iff_left (by positivity)]
  rw [diagonals, Diagonal]
  dsimp only
  rw [isZero_rem_iff hu hup hdouble (by omega) (by omega), isZero_rem_iff hu hdown hdouble (by omega) (by omega),
    hsum, hdifference, hcancel, hcancel]
  exact ⟨Iff.rfl, by omega⟩

theorem Survey.all_diagonals_iff (h : Survey u k ps) :
    (ps.all fun p => (diagonals (gridStep ps) (cornerOf ps) p).1 && (diagonals (gridStep ps) (cornerOf ps) p).2) =
        true ↔
      ∀ y ∈ board u ps, Diagonal (field (2 ^ (8 + u)) (board u ps) y) := by
  rw [List.all_eq_true, List.forall_mem_map]
  refine forall₂_congr fun p hp => ?_
  rw [Bool.and_eq_true, (h.diagonals_iff hp).1, (h.diagonals_iff hp).2, and_self]

theorem Survey.all_not_diagonals_iff (h : Survey u k ps) :
    (ps.all fun p => !(diagonals (gridStep ps) (cornerOf ps) p).1 &&
        !(diagonals (gridStep ps) (cornerOf ps) p).2) = true ↔
      ∀ y ∈ board u ps, ¬Diagonal (field (2 ^ (8 + u)) (board u ps) y) := by
  rw [List.all_eq_true, List.forall_mem_map]
  refine forall₂_congr fun p hp => ?_
  rw [Bool.and_eq_true, Bool.not_eq_true', Bool.not_eq_true', ← Bool.not_eq_true, ← Bool.not_eq_true,
    (h.diagonals_iff hp).1, (h.diagonals_iff hp).2, and_self]

/-- The scale of a transform: one or one half, divided by the step. -/
theorem Survey.is_scale (h : Survey u k ps) {i : Nat} (hi : i ≤ 1) {t : Binary64} (ht : t.Is (1 / 2 ^ i)) :
    (t / gridStep ps).Is ((2 ^ u : Nat) / 2 ^ (k + i)) := by
  have hu := h.fine
  have hk := h.coarse
  have hvalue : (1 : Rat) / 2 ^ i / ((2 ^ k : Nat) / 2 ^ u) = (2 ^ u : Nat) / 2 ^ (k + i) := by
    push_cast
    field_simp
    ring
  rw [← hvalue]
  refine ht.div h.step (by positivity) ?_
  rw [hvalue, ← Int.cast_natCast]
  refine has_units (by omega) ?_
  rw [Int.natAbs_natCast]
  exact Nat.pow_lt_pow_right (by decide) (by omega)

/-- The column to the left of the corner. -/
theorem Survey.is_left (h : Survey u k ps) :
    ((cornerOf ps).x - gridStep ps).Is (((corner (board u ps)).1 - (2 ^ k : Nat) : Int) / 2 ^ u) := by
  have hm := h.small.1
  have hk := h.pow_lt
  have hpos : 0 < 2 ^ k := Nat.pow_pos Nat.zero_lt_two
  unfold Small at hm
  exact is_sub h.fine h.cornerOn.x h.step (by omega)

/-- A coordinate that has been shifted and scaled. -/
theorem is_moved (hu : u ≤ 7) (hk : k ≤ 16) {x d t : Binary64} (hx : x.Is (a / 2 ^ u))
    (hd : d.Is (b / 2 ^ u)) (ht : t.Is ((2 ^ u : Nat) / 2 ^ k)) (h : (a + b).natAbs < 2 ^ 53) {v : Int}
    (hv : (a + b : Int) * 2 = 2 ^ k * v) : ((x + d) * t).Is (v / 2 ^ 1) := by
  have hvalue : ((a + b : Int) : Rat) / 2 ^ u * ((2 ^ u : Nat) / 2 ^ k) = (a + b : Int) / 2 ^ k := by
    push_cast
    field_simp
  have hresult : ((a + b : Int) : Rat) / 2 ^ k = v / 2 ^ 1 := by
    rw [div_eq_div_iff (by positivity) (by positivity)]
    have := congrArg (Int.cast (R := Rat)) hv
    push_cast at this ⊢
    linarith
  rw [← hresult, ← hvalue]
  exact (is_add hu hx hd h).mul ht (hvalue ▸ has_units hk h)

/-- The transform of points for which there is a common grid. -/
theorem rectification_eq (hne : c.distinctPoints ≠ [])
    (hgrid : (gridStep c.distinctPoints).compare? finestStep = some .gt) :
    let s := gridStep c.distinctPoints
    let m := cornerOf c.distinctPoints
    c.rectification =
      if c.distinctPoints.all fun p => (diagonals s m p).1 && (diagonals s m p).2 then
        ⟨-m.x, -m.y, Binary.ofDecimal .binary64 false 5 (-1) / s⟩
      else if c.distinctPoints.all fun p => !(diagonals s m p).1 && !(diagonals s m p).2 then
        ⟨-(m.x - s), -m.y, Binary.ofDecimal .binary64 false 5 (-1) / s⟩
      else ⟨-m.x, -m.y, .ofNat .binary64 1 / s⟩ := by
  intro s m
  have hempty : c.distinctPoints.isEmpty = false := List.isEmpty_eq_false_iff.2 hne
  rw [rectification]
  simp only [hempty, hgrid, foldl_least, List.all_map, beq_self_eq_true, Bool.not_true, Bool.false_eq_true,
    if_false]
  rfl

/-- A transform shifts by `d` units and makes `2 ^ k` units one, which takes points to the targets of their
fields. It shifts the corner to the origin, or to the right of it by a step. -/
structure Shifts (u k : Nat) (d : Int × Int) (ps : List Point) (t : CoordTransform) : Prop where
  fine : u ≤ 7
  coarse : k ≤ 16
  small : d.1.natAbs < 2 ^ 41 ∧ d.2.natAbs < 2 ^ 41
  dx : t.dx.Is (d.1 / 2 ^ u)
  dy : t.dy.Is (d.2 / 2 ^ u)
  scale : t.scale.Is ((2 ^ u : Nat) / 2 ^ k)
  column : ∀ z ∈ board u ps, (z.1 + d.1) * 2 = 2 ^ k * (target (2 ^ (8 + u)) (board u ps) z).1
  row : ∀ z ∈ board u ps, (z.2 + d.2) * 2 = 2 ^ k * (target (2 ^ (8 + u)) (board u ps) z).2
  cornerOn : (cornerOf ps).On u (corner (board u ps))
  left : t.dx = -(cornerOf ps).x ∨ t.dx = -((cornerOf ps).x - gridStep ps) ∧
    ∃ g : Nat, 0 < g ∧ (gridStep ps).Is (g / 2 ^ u) ∧ d.1 = -((corner (board u ps)).1 - g)
  low : t.dy = -(cornerOf ps).y

/-- A transform with the shift and the scale that the targets ask for. -/
theorem Survey.shifts (h : Survey u k ps) {i e : Nat} {x t : Binary64} (hi : i ≤ 1) (he : e ≤ 1)
    (ht : t.Is (1 / 2 ^ i)) (ha : a = -((corner (board u ps)).1 - 2 ^ k * e)) (hx : x.Is (a / 2 ^ u))
    (hleft : x = -(cornerOf ps).x ∨ x = -((cornerOf ps).x - gridStep ps) ∧ e = 1)
    (htarget : ∀ z ∈ board u ps,
      ((field (2 ^ (8 + u)) (board u ps) z).1 + e) * 2 = 2 ^ i * (target (2 ^ (8 + u)) (board u ps) z).1 ∧
        (field (2 ^ (8 + u)) (board u ps) z).2 * 2 = 2 ^ i * (target (2 ^ (8 + u)) (board u ps) z).2) :
    Shifts u (k + i) (a, -(corner (board u ps)).2) ps ⟨x, -(cornerOf ps).y, t / gridStep ps⟩ where
  fine := h.fine
  coarse := by
    have := h.coarse
    have := h.fine
    omega
  small := by
    obtain ⟨hm1, hm2⟩ := h.small
    unfold Small at hm1 hm2
    have hk : (2 ^ k : Int) < 2 ^ 40 := by exact_mod_cast h.pow_lt
    have hle : (2 ^ k * e : Int) ≤ 2 ^ k := mul_le_of_le_one_right (by positivity) (by exact_mod_cast he)
    have hnonneg : (0 : Int) ≤ 2 ^ k * e := by positivity
    dsimp only
    omega
  dx := hx
  dy := is_neg h.cornerOn.y
  scale := h.is_scale hi ht
  column z hz := by
    calc (z.1 + a) * 2 = 2 ^ k * (((field (2 ^ (8 + u)) (board u ps) z).1 + e) * 2) := by
          rw [ha]
          linarith [h.column z hz]
      _ = 2 ^ (k + i) * (target (2 ^ (8 + u)) (board u ps) z).1 := by
          rw [(htarget z hz).1, pow_add (2 : Int), mul_assoc]
  row z hz := by
    calc (z.2 + -(corner (board u ps)).2) * 2 = 2 ^ k * ((field (2 ^ (8 + u)) (board u ps) z).2 * 2) := by
          linarith [h.row z hz]
      _ = 2 ^ (k + i) * (target (2 ^ (8 + u)) (board u ps) z).2 := by
          rw [(htarget z hz).2, pow_add (2 : Int), mul_assoc]
  cornerOn := h.cornerOn
  left := by
    refine hleft.imp_right fun ⟨hright, he⟩ => ⟨hright, 2 ^ k, Nat.pow_pos Nat.zero_lt_two, h.step, ?_⟩
    rw [ha, he]
    push_cast
    ring
  low := rfl

/-- A rectification finds such a transform. -/
theorem exists_shifts (hu : u ≤ 7) (hne : c.distinctPoints ≠ [])
    (h : ∀ p ∈ c.distinctPoints, p.OnGrid u) : ∃ k d, Shifts u k d c.distinctPoints c.rectification := by
  obtain ⟨k, hsurvey⟩ := exists_survey hu hne h
  have hcorner := hsurvey.cornerOn
  have hone : (Binary.ofNat .binary64 1).Is (1 / 2 ^ 0) := by simpa using is_ofNat (n := 1) (by norm_num)
  have hhalf : (Binary.ofDecimal .binary64 false 5 (-1)).Is (1 / 2 ^ 1) := by simpa using is_half
  rw [rectification_eq hne (finestStep_lt hu (Nat.pow_pos Nat.zero_lt_two) hsurvey.step)]
  rcases target_cases (2 ^ (8 + u)) (board u c.distinctPoints) with hyes | hno | ⟨w, hw, w', hw', hyes, hno⟩
  · rw [if_pos (hsurvey.all_diagonals_iff.2 hyes)]
    refine ⟨_, _, hsurvey.shifts (Nat.le_refl 1) (Nat.zero_le 1) hhalf (by simp) (is_neg hcorner.x) (.inl rfl)
      fun z _ => ?_⟩
    rw [target_of_diagonal hyes]
    constructor <;> push_cast <;> ring
  · obtain ⟨p, hp⟩ := List.exists_mem_of_ne_nil _ hne
    have hz : p.units u ∈ board u c.distinctPoints := List.mem_map_of_mem hp
    rw [if_neg fun hyes => hno _ hz (hsurvey.all_diagonals_iff.1 hyes _ hz),
      if_pos (hsurvey.all_not_diagonals_iff.2 hno)]
    refine ⟨_, _, hsurvey.shifts (Nat.le_refl 1) (Nat.le_refl 1) hhalf (by simp) (is_neg hsurvey.is_left)
      (.inr ⟨rfl, rfl⟩) fun z hz => ?_⟩
    rw [target_of_not_diagonal (List.ne_nil_of_mem hz) hno]
    constructor <;> push_cast <;> ring
  · rw [if_neg fun hall => hno (hsurvey.all_diagonals_iff.1 hall w' hw'),
      if_neg fun hnone => hsurvey.all_not_diagonals_iff.1 hnone w hw hyes]
    refine ⟨_, _, hsurvey.shifts (Nat.zero_le 1) (Nat.zero_le 1) hone (by simp) (is_neg hcorner.x) (.inl rfl)
      fun z _ => ?_⟩
    rw [target_of_both hw hw' hyes hno]
    constructor <;> push_cast <;> ring

/-- A rectification moves the points of a board to the targets of their fields. -/
theorem Shifts.on {d : Int × Int} {t : CoordTransform} (h : Shifts u k d ps t) (hp : p.OnGrid u)
    (hmem : p.units u ∈ board u ps) :
    (t.apply p).On 1 (target (2 ^ (8 + u)) (board u ps) (p.units u)) := by
  obtain ⟨hd1, hd2⟩ := h.small
  obtain ⟨hz1, hz2⟩ := hp.small
  unfold Small at hz1 hz2
  exact ⟨is_moved h.fine h.coarse hp.on.x h.dx h.scale (by omega) (h.column _ hmem),
    is_moved h.fine h.coarse hp.on.y h.dy h.scale (by omega) (h.row _ hmem)⟩

end Circuit

end StimOverlay
