import Mathlib.Algebra.Order.Group.Unbundled.Int
import Mathlib.Data.Nat.Prime.Basic
import Mathlib.Tactic.Linarith
import Mathlib.Tactic.Ring

/-! Boards of integer points. Points with integer coordinates lie on a grid through the origin; its
coarsest step and the lower left corner of the points give each point a field. A rectification moves the
points according to their fields, and the moved points lie on a board again. -/

namespace StimOverlay

namespace Board

/-- The coarsest step of a grid through the origin that all points lie on, among the divisors of `cap`. -/
def step (cap : Nat) (zs : List (Int × Int)) : Nat :=
  zs.foldl (fun g z => Nat.gcd g (Int.gcd z.1 z.2)) cap

def least (xs : List Int) : Int := xs.min?.getD 0

/-- The lower left corner of the points. -/
def corner (zs : List (Int × Int)) : Int × Int := (least (zs.map (·.1)), least (zs.map (·.2)))

/-- The column and the row of a point, counted in steps from the corner. -/
def field (cap : Nat) (zs : List (Int × Int)) (z : Int × Int) : Int × Int :=
  ((z.1 - (corner zs).1) / step cap zs, (z.2 - (corner zs).2) / step cap zs)

/-- The colour of the fields on the diagonals of the corner. -/
def Diagonal (f : Int × Int) : Prop := 2 ∣ f.1 + f.2

instance (f : Int × Int) : Decidable (Diagonal f) := inferInstanceAs (Decidable (2 ∣ f.1 + f.2))

/-- Where a rectification puts a point, in halves. On a board of both colours fields are a whole step apart. When
only one colour is taken they are half a step apart, and those of the other colour than the corner's are moved to
the right. -/
def target (cap : Nat) (zs : List (Int × Int)) (z : Int × Int) : Int × Int :=
  let f := field cap zs z
  if ∀ y ∈ zs, Diagonal (field cap zs y) then f
  else if ∀ y ∈ zs, ¬Diagonal (field cap zs y) then (f.1 + 1, f.2)
  else (2 * f.1, 2 * f.2)

/-- The points take fields that do not lie on a coarser grid through the corner, or they are of both colours on
the next coarser one; or there is one place at most. -/
def Settled (cap : Nat) (zs : List (Int × Int)) : Prop :=
  (∃ z ∈ zs, ¬(2 ∣ (field cap zs z).1 ∧ 2 ∣ (field cap zs z).2)) ∨
    ((∃ z ∈ zs, 4 ∣ (field cap zs z).1 + (field cap zs z).2) ∧
      ∃ z ∈ zs, ¬4 ∣ (field cap zs z).1 + (field cap zs z).2) ∨
    ∀ z ∈ zs, field cap zs z = (0, 0)

instance (cap : Nat) (zs : List (Int × Int)) : Decidable (Settled cap zs) :=
  inferInstanceAs (Decidable (_ ∨ _))

variable {cap : Nat} {zs : List (Int × Int)} {z : Int × Int} {xs : List Int} {m : Int}

theorem dvd_step_iff {d : Nat} :
    d ∣ step cap zs ↔ d ∣ cap ∧ ∀ z ∈ zs, (d : Int) ∣ z.1 ∧ (d : Int) ∣ z.2 := by
  induction zs generalizing cap with
  | nil => simp [step]
  | cons z rest ih =>
      have hz : d ∣ Int.gcd z.1 z.2 ↔ (d : Int) ∣ z.1 ∧ (d : Int) ∣ z.2 := by
        rw [Int.dvd_gcd_iff]
      change d ∣ step (Nat.gcd cap (Int.gcd z.1 z.2)) rest ↔ _
      rw [ih, Nat.dvd_gcd_iff, hz, List.forall_mem_cons, and_assoc]

theorem step_dvd (hz : z ∈ zs) : (step cap zs : Int) ∣ z.1 ∧ (step cap zs : Int) ∣ z.2 :=
  (dvd_step_iff.1 (dvd_refl _)).2 z hz

theorem step_dvd_cap (cap : Nat) (zs : List (Int × Int)) : step cap zs ∣ cap := (dvd_step_iff.1 (dvd_refl _)).1

theorem step_pos (hcap : 0 < cap) (zs : List (Int × Int)) : 0 < step cap zs :=
  Nat.pos_of_dvd_of_pos (step_dvd_cap cap zs) hcap

theorem eq_one_of_dvd_two_pow {d k : Nat} (hd : d ∣ 2 ^ k) (hodd : ¬2 ∣ d) : d = 1 :=
  have hcoprime := (Nat.Prime.coprime_iff_not_dvd Nat.prime_two).2 hodd
  (hcoprime.symm.pow_right k).eq_one_of_dvd hd

theorem gcd_two_pow_succ {k n : Nat} (h : ¬2 ^ (k + 1) ∣ n) : Nat.gcd (2 ^ (k + 1)) n = Nat.gcd (2 ^ k) n := by
  obtain ⟨j, hj, heq⟩ := (Nat.dvd_prime_pow Nat.prime_two).1 (Nat.gcd_dvd_left (2 ^ (k + 1)) n)
  have hlt : j ≠ k + 1 := by
    rintro rfl
    exact h (heq ▸ Nat.gcd_dvd_right _ _)
  refine Nat.dvd_antisymm (Nat.dvd_gcd ?_ (Nat.gcd_dvd_right _ _)) ?_
  · rw [heq]
    exact Nat.pow_dvd_pow 2 (by omega)
  · exact Nat.gcd_dvd_gcd_of_dvd_left _ (Nat.pow_dvd_pow 2 (Nat.le_succ k))

theorem two_dvd_step_iff {k : Nat} : 2 ∣ step (2 ^ (k + 1)) zs ↔ ∀ z ∈ zs, 2 ∣ z.1 ∧ 2 ∣ z.2 :=
  dvd_step_iff.trans (and_iff_right (Dvd.intro_left _ (Nat.pow_succ 2 k).symm))

theorem step_eq_two {k : Nat} (h2 : 2 ∣ step (2 ^ (k + 1)) zs) (h4 : ¬4 ∣ step (2 ^ (k + 1)) zs) :
    step (2 ^ (k + 1)) zs = 2 := by
  obtain ⟨d, hd⟩ := h2
  have hcap := step_dvd_cap (2 ^ (k + 1)) zs
  rw [hd] at h4 hcap ⊢
  rw [Nat.pow_succ', Nat.mul_dvd_mul_iff_left (by decide)] at hcap
  rw [eq_one_of_dvd_two_pow hcap fun hd => h4 (Nat.mul_dvd_mul_left 2 hd)]

theorem least_spec (h : xs ≠ []) : least xs ∈ xs ∧ ∀ x ∈ xs, least xs ≤ x := by
  obtain ⟨m, hm⟩ := Option.isSome_iff_exists.1 (List.isSome_min?_of_ne_nil h)
  rw [least, hm]
  exact List.min?_eq_some_iff.1 hm

theorem least_eq (hm : m ∈ xs) (hle : ∀ x ∈ xs, m ≤ x) : least xs = m := by
  rw [least, List.min?_eq_some_iff.2 ⟨hm, hle⟩]
  rfl

theorem corner_eq {z z' : Int × Int} (hz : z ∈ zs) (hz' : z' ∈ zs)
    (hle : ∀ y ∈ zs, z.1 ≤ y.1 ∧ z'.2 ≤ y.2) : corner zs = (z.1, z'.2) := by
  have hleft : least (zs.map (·.1)) = z.1 :=
    least_eq (List.mem_map_of_mem hz) (List.forall_mem_map.2 fun y hy => (hle y hy).1)
  have hlow : least (zs.map (·.2)) = z'.2 :=
    least_eq (List.mem_map_of_mem hz') (List.forall_mem_map.2 fun y hy => (hle y hy).2)
  rw [corner, hleft, hlow]

theorem exists_corner (h : zs ≠ []) : ∃ z ∈ zs, ∃ z' ∈ zs, corner zs = (z.1, z'.2) ∧
    ∀ y ∈ zs, z.1 ≤ y.1 ∧ z'.2 ≤ y.2 := by
  have hmap (f : Int × Int → Int) : zs.map f ≠ [] := fun hnil => h (List.map_eq_nil_iff.1 hnil)
  obtain ⟨hmem, hle⟩ := least_spec (hmap (·.1))
  obtain ⟨hmem', hle'⟩ := least_spec (hmap (·.2))
  obtain ⟨z, hz, hzle⟩ := List.mem_map.1 hmem
  obtain ⟨z', hz', hzle'⟩ := List.mem_map.1 hmem'
  refine ⟨z, hz, z', hz', by rw [hzle, hzle']; rfl, fun y hy => ⟨?_, ?_⟩⟩
  · rw [hzle]
    exact hle _ (List.mem_map_of_mem hy)
  · rw [hzle']
    exact hle' _ (List.mem_map_of_mem hy)

/-- The division by the step leaves no remainder. -/
theorem field_spec (cap : Nat) (hz : z ∈ zs) :
    z.1 = (corner zs).1 + step cap zs * (field cap zs z).1 ∧
      z.2 = (corner zs).2 + step cap zs * (field cap zs z).2 := by
  obtain ⟨y, hy, y', hy', hcorner, -⟩ := exists_corner (List.ne_nil_of_mem hz)
  have hleft : (step cap zs : Int) ∣ z.1 - (corner zs).1 := by
    rw [hcorner]
    exact Int.dvd_sub (step_dvd hz).1 (step_dvd hy).1
  have hlow : (step cap zs : Int) ∣ z.2 - (corner zs).2 := by
    rw [hcorner]
    exact Int.dvd_sub (step_dvd hz).2 (step_dvd hy').2
  rw [field, Int.mul_ediv_cancel' hleft, Int.mul_ediv_cancel' hlow]
  constructor <;> ring

theorem field_nonneg (cap : Nat) (hz : z ∈ zs) :
    0 ≤ (field cap zs z).1 ∧ 0 ≤ (field cap zs z).2 := by
  obtain ⟨y, -, y', -, hcorner, hle⟩ := exists_corner (List.ne_nil_of_mem hz)
  rw [field, hcorner]
  have hstep : (0 : Int) ≤ step cap zs := Int.natCast_nonneg _
  exact ⟨Int.ediv_nonneg (Int.sub_nonneg.2 (hle z hz).1) hstep,
    Int.ediv_nonneg (Int.sub_nonneg.2 (hle z hz).2) hstep⟩

/-- Some point is in the first column, and some point in the first row. -/
theorem exists_field_zero (cap : Nat) (h : zs ≠ []) :
    (∃ z ∈ zs, (field cap zs z).1 = 0) ∧ ∃ z ∈ zs, (field cap zs z).2 = 0 := by
  obtain ⟨y, hy, y', hy', hcorner, -⟩ := exists_corner h
  refine ⟨⟨y, hy, ?_⟩, y', hy', ?_⟩ <;> rw [field, hcorner, Int.sub_self, Int.zero_ediv]

/-- Steps, corners and fields depend on the set of the points only. -/
theorem field_congr {ys : List (Int × Int)} (h : ∀ z, z ∈ ys ↔ z ∈ zs) :
    field cap ys = field cap zs := by
  have hstep : step cap ys = step cap zs := by
    refine Nat.dvd_antisymm ?_ ?_ <;> refine dvd_step_iff.2 ⟨step_dvd_cap _ _, fun z hz => step_dvd ?_⟩
    · exact (h z).2 hz
    · exact (h z).1 hz
  have hcorner : corner ys = corner zs := by
    rcases eq_or_ne zs [] with rfl | hne
    · rw [List.eq_nil_iff_forall_not_mem.2 fun z hz => List.not_mem_nil ((h z).1 hz)]
    · obtain ⟨z, hz, z', hz', hcorner, hle⟩ := exists_corner hne
      rw [hcorner]
      exact corner_eq ((h z).2 hz) ((h z').2 hz') fun y hy => hle y ((h y).1 hy)
  funext z
  rw [field, field, hstep, hcorner]

theorem settled_congr {ys : List (Int × Int)} (h : ∀ z, z ∈ ys ↔ z ∈ zs) :
    Settled cap ys ↔ Settled cap zs := by
  rw [Settled, Settled, field_congr h]
  simp only [h]

theorem target_of_diagonal (h : ∀ y ∈ zs, Diagonal (field cap zs y)) (z : Int × Int) :
    target cap zs z = field cap zs z := if_pos h

theorem target_of_not_diagonal (hne : zs ≠ []) (h : ∀ y ∈ zs, ¬Diagonal (field cap zs y))
    (z : Int × Int) : target cap zs z = ((field cap zs z).1 + 1, (field cap zs z).2) := by
  obtain ⟨y, hy⟩ := List.exists_mem_of_ne_nil zs hne
  exact (if_neg fun hall => h y hy (hall y hy)).trans (if_pos h)

theorem target_of_both {y y' : Int × Int} (hy : y ∈ zs) (hy' : y' ∈ zs) (h : Diagonal (field cap zs y))
    (h' : ¬Diagonal (field cap zs y')) (z : Int × Int) :
    target cap zs z = (2 * (field cap zs z).1, 2 * (field cap zs z).2) :=
  (if_neg fun hall => h' (hall y' hy')).trans (if_neg fun hnone => hnone y hy h)

/-- The three ways to move. -/
theorem target_cases (cap : Nat) (zs : List (Int × Int)) :
    (∀ y ∈ zs, Diagonal (field cap zs y)) ∨ (∀ y ∈ zs, ¬Diagonal (field cap zs y)) ∨
      ∃ y ∈ zs, ∃ y' ∈ zs, Diagonal (field cap zs y) ∧ ¬Diagonal (field cap zs y') := by
  by_cases hall : ∀ y ∈ zs, Diagonal (field cap zs y)
  · exact .inl hall
  by_cases hnone : ∀ y ∈ zs, ¬Diagonal (field cap zs y)
  · exact .inr (.inl hnone)
  push Not at hall hnone
  obtain ⟨y', hy', hodd⟩ := hall
  obtain ⟨y, hy, heven⟩ := hnone
  exact .inr (.inr ⟨y, hy, y', hy', heven, hodd⟩)

/-- Different points have different targets. -/
theorem target_injective {y z : Int × Int} (hy : y ∈ zs) (hz : z ∈ zs)
    (h : target cap zs y = target cap zs z) : y = z := by
  have hfield : field cap zs y = field cap zs z := by
    rcases target_cases cap zs with hall | hnone | ⟨w, hw, w', hw', hdiagonal, hother⟩
    · rwa [target_of_diagonal hall, target_of_diagonal hall] at h
    · rw [target_of_not_diagonal (List.ne_nil_of_mem hy) hnone,
        target_of_not_diagonal (List.ne_nil_of_mem hy) hnone, Prod.ext_iff] at h
      dsimp only at h
      exact Prod.ext (by omega) h.2
    · rw [target_of_both hw hw' hdiagonal hother, target_of_both hw hw' hdiagonal hother, Prod.ext_iff] at h
      dsimp only at h
      exact Prod.ext (by omega) (by omega)
  obtain ⟨hy1, hy2⟩ := field_spec cap hy
  obtain ⟨hz1, hz2⟩ := field_spec cap hz
  rw [hfield] at hy1 hy2
  exact Prod.ext (hy1.trans hz1.symm) (hy2.trans hz2.symm)

/-- Targets are at most twice as far from the origin as points are from each other, and a step more. -/
theorem natAbs_target_le {b : Nat} (hcap : 0 < cap) (h : ∀ y ∈ zs, y.1.natAbs ≤ b ∧ y.2.natAbs ≤ b)
    (hz : z ∈ zs) : (target cap zs z).1.natAbs ≤ 4 * b + 1 ∧ (target cap zs z).2.natAbs ≤ 4 * b + 1 := by
  obtain ⟨y, hy, y', hy', hcorner, -⟩ := exists_corner (List.ne_nil_of_mem hz)
  obtain ⟨hcolumn, hrow⟩ := field_nonneg cap hz
  have hstep : (0 : Int) < step cap zs := by exact_mod_cast step_pos hcap zs
  have hle (a : Int) : a / step cap zs ≤ a.natAbs :=
    Int.ediv_le_of_le_mul hstep (by nlinarith [Int.le_natAbs (a := a), Int.natCast_nonneg a.natAbs])
  have hleft : (field cap zs z).1 ≤ (z.1 - y.1).natAbs := by
    rw [field, hcorner]
    exact hle _
  have hlow : (field cap zs z).2 ≤ (z.2 - y'.2).natAbs := by
    rw [field, hcorner]
    exact hle _
  have := h z hz
  have := h y hy
  have := h y' hy'
  rcases target_cases cap zs with hall | hnone | ⟨w, hw, w', hw', hdiagonal, hother⟩
  · rw [target_of_diagonal hall]
    omega
  · rw [target_of_not_diagonal (List.ne_nil_of_mem hz) hnone]
    dsimp only
    omega
  · rw [target_of_both hw hw' hdiagonal hother]
    dsimp only
    omega

/-- The corner of points that have been moved according to their fields. -/
theorem corner_map (cap : Nat) {G : Int × Int → Int × Int} (hne : zs ≠ [])
    (hle : ∀ z ∈ zs, m ≤ (G z).1 ∧ 0 ≤ (G z).2) (hleft : ∀ z, (field cap zs z).1 = 0 → (G z).1 = m)
    (hlow : ∀ z, (field cap zs z).2 = 0 → (G z).2 = 0) :
    corner (zs.map G) = (m, 0) := by
  obtain ⟨⟨y, hy, hyzero⟩, y', hy', hyzero'⟩ := exists_field_zero cap hne
  rw [← hleft y hyzero, ← hlow y' hyzero']
  refine corner_eq (List.mem_map_of_mem hy) (List.mem_map_of_mem hy') (List.forall_mem_map.2 fun z hz => ?_)
  rw [hleft y hyzero, hlow y' hyzero']
  exact hle z hz

theorem field_map {G : Int × Int → Int × Int} (hcorner : corner (zs.map G) = (m, 0)) {d : Nat}
    (hstep : step cap (zs.map G) = d) (w : Int × Int) : field cap (zs.map G) w = ((w.1 - m) / d, w.2 / d) := by
  rw [field, hcorner, hstep, Int.sub_zero]

/-- Where the fields are the same the targets are. -/
theorem target_map {cap' : Nat} {G : Int × Int → Int × Int}
    (h : ∀ y, field cap' (zs.map G) (G y) = field cap zs y) (z : Int × Int) :
    target cap' (zs.map G) (G z) = target cap zs z := by
  rw [target, target]
  simp only [List.forall_mem_map, h]

theorem settled_of_not_diagonal (hz : z ∈ zs) (h : ¬Diagonal (field cap zs z)) : Settled cap zs :=
  .inl ⟨z, hz, fun ⟨hcolumn, hrow⟩ => h (Int.dvd_add hcolumn hrow)⟩

variable {k : Nat}

/-- Moved to every second column and row, points stay there. -/
theorem moved_both {y y' : Int × Int} (hy : y ∈ zs) (hy' : y' ∈ zs) (h : Diagonal (field cap zs y))
    (h' : ¬Diagonal (field cap zs y')) (z : Int × Int) :
    target (2 ^ (k + 1)) (zs.map (target cap zs)) (target cap zs z) = target cap zs z := by
  have htarget := target_of_both hy hy' h h'
  have hcorner : corner (zs.map (target cap zs)) = (0, 0) := by
    refine corner_map cap (List.ne_nil_of_mem hy) (fun z hz => ?_) (fun z hz => ?_) fun z hz => ?_
    · obtain ⟨hcolumn, hrow⟩ := field_nonneg cap hz
      rw [htarget]
      constructor <;> dsimp only <;> omega
    · rw [htarget, hz]
      rfl
    · rw [htarget, hz]
      rfl
  -- A step of four would leave only fields of even columns and rows, which are all of one colour.
  have hstep : step (2 ^ (k + 1)) (zs.map (target cap zs)) = 2 := by
    refine step_eq_two (two_dvd_step_iff.2 (List.forall_mem_map.2 fun z _ => ?_)) fun h4 => ?_
    · rw [htarget]
      exact ⟨Int.dvd_mul_right _ _, Int.dvd_mul_right _ _⟩
    · obtain ⟨hcolumn, hrow⟩ := (dvd_step_iff.1 h4).2 _ (List.mem_map_of_mem hy')
      rw [htarget] at hcolumn hrow
      dsimp only at hcolumn hrow
      refine h' (Int.dvd_add ?_ ?_) <;> omega
  refine target_map (fun z => ?_) z
  rw [field_map hcorner hstep, htarget]
  refine Prod.ext ?_ ?_ <;> dsimp only <;> omega

/-- Moved to the fields of the corner's colour, points stay there. -/
theorem moved_not_diagonal (hne : zs ≠ []) (h : ∀ y ∈ zs, ¬Diagonal (field cap zs y)) (z : Int × Int) :
    target (2 ^ (k + 1)) (zs.map (target cap zs)) (target cap zs z) = target cap zs z := by
  have htarget := target_of_not_diagonal hne h
  have hcorner : corner (zs.map (target cap zs)) = (1, 0) := by
    refine corner_map cap hne (fun z hz => ?_) (fun z hz => ?_) fun z hz => ?_
    · obtain ⟨hcolumn, hrow⟩ := field_nonneg cap hz
      rw [htarget]
      constructor <;> dsimp only <;> omega
    · rw [htarget, hz]
      rfl
    · rw [htarget, hz]
  -- The points of the first column are moved to the odd column one.
  have hstep : step (2 ^ (k + 1)) (zs.map (target cap zs)) = 1 := by
    refine eq_one_of_dvd_two_pow (step_dvd_cap _ _) fun h2 => ?_
    obtain ⟨⟨y, hy, hzero⟩, -⟩ := exists_field_zero cap hne
    have hone := ((dvd_step_iff.1 h2).2 _ (List.mem_map_of_mem hy)).1
    rw [htarget, hzero] at hone
    dsimp only at hone
    omega
  refine target_map (fun z => ?_) z
  rw [field_map hcorner hstep, htarget]
  refine Prod.ext ?_ ?_ <;> dsimp only <;> omega

theorem corner_map_field (hne : zs ≠ []) : corner (zs.map (field cap zs)) = (0, 0) :=
  corner_map cap hne (fun _ hz => field_nonneg cap hz) (fun _ => id) fun _ => id

/-- Points on the diagonals of the corner whose fields lie on a coarser grid stay where they are when they are of
both colours there. -/
theorem moved_coarse_iff (hne : zs ≠ []) (hcoarse : 2 ∣ step (2 ^ (k + 1)) (zs.map (field cap zs))) :
    (∀ z ∈ zs, target (2 ^ (k + 1)) (zs.map (field cap zs)) (field cap zs z) = field cap zs z) ↔
      ((∃ z ∈ zs, 4 ∣ (field cap zs z).1 + (field cap zs z).2) ∧
        ∃ z ∈ zs, ¬4 ∣ (field cap zs z).1 + (field cap zs z).2) ∨
      ∀ z ∈ zs, field cap zs z = (0, 0) := by
  have hne' : zs.map (field cap zs) ≠ [] := fun hnil => hne (List.map_eq_nil_iff.1 hnil)
  obtain ⟨d, hd⟩ : ∃ d, step (2 ^ (k + 1)) (zs.map (field cap zs)) = d := ⟨_, rfl⟩
  have hfield (w : Int × Int) : field (2 ^ (k + 1)) (zs.map (field cap zs)) w = (w.1 / d, w.2 / d) := by
    rw [field_map (corner_map_field hne) hd, Int.sub_zero]
  have heven := two_dvd_step_iff.1 hcoarse
  rw [List.forall_mem_map] at heven
  have hlarge : 1 < (d : Int) := by
    have hpos := step_pos (Nat.pow_pos (n := k + 1) Nat.zero_lt_two) (zs.map (field cap zs))
    rw [hd] at hpos hcoarse
    omega
  constructor
  · intro hfix
    rcases target_cases (2 ^ (k + 1)) (zs.map (field cap zs)) with hall | hnone | ⟨w, hw, w', hw', hboth⟩
    · refine .inr fun z hz => ?_
      have hz' := hfix z hz
      rw [target_of_diagonal hall, hfield] at hz'
      obtain ⟨hcolumn, hrow⟩ := field_nonneg cap hz
      have hzero {a : Int} (ha : 0 ≤ a) (h : a / d = a) : a = 0 := by
        by_contra hne
        exact absurd h (Int.ediv_lt_self_of_pos_of_ne_one (by omega) (by omega)).ne
      exact Prod.ext (hzero hcolumn (congrArg Prod.fst hz')) (hzero hrow (congrArg Prod.snd hz'))
    · obtain ⟨⟨y, hy, hzero⟩, -⟩ := exists_field_zero cap hne
      have hcolumn := congrArg Prod.fst (hfix y hy)
      rw [target_of_not_diagonal hne' hnone, hfield] at hcolumn
      dsimp only at hcolumn
      rw [hzero, Int.zero_ediv] at hcolumn
      exact absurd hcolumn (by decide)
    · obtain ⟨y, hy, rfl⟩ := List.mem_map.1 hw
      obtain ⟨y', hy', rfl⟩ := List.mem_map.1 hw'
      have hfix' (z : Int × Int) (hz : z ∈ zs) : 2 * ((field cap zs z).1 / d) = (field cap zs z).1 ∧
          2 * ((field cap zs z).2 / d) = (field cap zs z).2 := by
        have hz' := hfix z hz
        rw [target_of_both hw hw' hboth.1 hboth.2, hfield] at hz'
        exact ⟨congrArg Prod.fst hz', congrArg Prod.snd hz'⟩
      obtain ⟨hdiagonal, hother⟩ := hboth
      rw [hfield, Diagonal] at hdiagonal hother
      have hy2 := hfix' y hy
      have hy2' := hfix' y' hy'
      refine .inl ⟨⟨y, hy, ?_⟩, y', hy', ?_⟩ <;> dsimp only at hdiagonal hother <;> omega
  · rintro (⟨⟨y, hy, hfour⟩, y', hy', hfour'⟩ | hzero) z hz
    · have htwo : d = 2 := by
        rw [← hd]
        refine step_eq_two hcoarse fun h4 => hfour' ?_
        obtain ⟨hcolumn, hrow⟩ := (dvd_step_iff.1 h4).2 _ (List.mem_map_of_mem hy')
        exact Int.dvd_add hcolumn hrow
      subst htwo
      have hdiagonal : Diagonal (field (2 ^ (k + 1)) (zs.map (field cap zs)) (field cap zs y)) := by
        have := heven y hy
        rw [hfield, Diagonal]
        dsimp only
        omega
      have hother : ¬Diagonal (field (2 ^ (k + 1)) (zs.map (field cap zs)) (field cap zs y')) := by
        have := heven y' hy'
        rw [hfield, Diagonal]
        dsimp only
        omega
      have := heven z hz
      rw [target_of_both (List.mem_map_of_mem hy) (List.mem_map_of_mem hy') hdiagonal hother, hfield]
      refine Prod.ext ?_ ?_ <;> dsimp only <;> omega
    · have horigin (y : Int × Int) (hy : y ∈ zs) :
          field (2 ^ (k + 1)) (zs.map (field cap zs)) (field cap zs y) = (0, 0) := by
        rw [hfield, hzero y hy]
        simp
      have hall : ∀ w ∈ zs.map (field cap zs), Diagonal (field (2 ^ (k + 1)) (zs.map (field cap zs)) w) :=
        List.forall_mem_map.2 fun y hy => (horigin y hy).symm ▸ Int.dvd_zero 2
      rw [target_of_diagonal hall, horigin z hz, hzero z hz]

theorem moved_diagonal_iff (hne : zs ≠ []) (h : ∀ y ∈ zs, Diagonal (field cap zs y)) :
    (∀ z ∈ zs, target (2 ^ (k + 1)) (zs.map (target cap zs)) (target cap zs z) = target cap zs z) ↔
      Settled cap zs := by
  rw [funext (target_of_diagonal h)]
  have htwo : 2 ∣ step (2 ^ (k + 1)) (zs.map (field cap zs)) ↔
      ∀ z ∈ zs, 2 ∣ (field cap zs z).1 ∧ 2 ∣ (field cap zs z).2 := by
    rw [two_dvd_step_iff, List.forall_mem_map]
  by_cases hcoarse : 2 ∣ step (2 ^ (k + 1)) (zs.map (field cap zs))
  · refine (moved_coarse_iff hne hcoarse).trans (or_iff_right ?_).symm
    rintro ⟨z, hz, hodd⟩
    exact hodd (htwo.1 hcoarse z hz)
  · have hone := eq_one_of_dvd_two_pow (step_dvd_cap _ _) hcoarse
    have hsame (w : Int × Int) : field (2 ^ (k + 1)) (zs.map (field cap zs)) w = w := by
      rw [field_map (corner_map_field hne) hone, Int.natCast_one, Int.ediv_one, Int.ediv_one, Int.sub_zero]
    refine iff_of_true (fun z _ => ?_) ?_
    · rw [target_map (fun y => hsame _) z, target_of_diagonal h]
    · by_contra hunsettled
      refine hcoarse (htwo.2 fun z hz => ?_)
      by_contra hodd
      exact hunsettled (.inl ⟨z, hz, hodd⟩)

/-- Points that have been moved stay where they are exactly when they were settled. -/
theorem moved_iff (cap k : Nat) (zs : List (Int × Int)) :
    (∀ z ∈ zs, target (2 ^ (k + 1)) (zs.map (target cap zs)) (target cap zs z) = target cap zs z) ↔
      Settled cap zs := by
  rcases eq_or_ne zs [] with rfl | hne
  · exact iff_of_true (List.forall_mem_nil _) (.inr (.inr (List.forall_mem_nil _)))
  rcases target_cases cap zs with hall | hnone | ⟨y, hy, y', hy', hdiagonal, hother⟩
  · exact moved_diagonal_iff hne hall
  · obtain ⟨y, hy⟩ := List.exists_mem_of_ne_nil zs hne
    exact iff_of_true (fun z _ => moved_not_diagonal hne hnone z) (settled_of_not_diagonal hy (hnone y hy))
  · exact iff_of_true (fun z _ => moved_both hy hy' hdiagonal hother z) (settled_of_not_diagonal hy' hother)

end Board

end StimOverlay
