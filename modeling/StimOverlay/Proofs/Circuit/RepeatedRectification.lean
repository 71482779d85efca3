import StimOverlay.Proofs.Circuit.ExactRectification

/-! Rectifying twice. A layout that has been rectified is left alone by another rectification exactly when
the grid step that was found is that of the layout itself. The step is that of a grid through the origin,
so this depends on where the layout stands. -/

namespace StimOverlay

open Numeric Board

theorem Numeric.Binary.units_inj {u : Nat} {a b : Int} : (a : Rat) / 2 ^ u = b / 2 ^ u ↔ a = b := by
  rw [div_left_inj' (by positivity), Int.cast_inj]

theorem Numeric.Binary.Is.units_unique {u : Nat} {x : Binary64} {a b : Int} (ha : x.Is (a / 2 ^ u))
    (hb : x.Is (b / 2 ^ u)) : a = b :=
  Binary.units_inj.1 (ha.value.symm.trans hb.value)

theorem Point.On.place_eq_iff {u : Nat} {p q : Point} {z w : Int × Int} (hp : p.On u z) (hq : q.On u w) :
    p.place = q.place ↔ z = w := by
  rw [Point.place, Point.place, Point.mk.injEq, hp.x.unsignedZero_eq_iff hq.x, hp.y.unsignedZero_eq_iff hq.y,
    Binary.units_inj, Binary.units_inj, Prod.ext_iff]

namespace Circuit

variable {u k : Nat} {d : Int × Int} {p : Point} {ps : List Point} {t : CoordTransform} {c : Circuit}

theorem Shifts.isNegative_scale (h : Shifts u k d ps t) : t.scale.isNegative = false :=
  h.scale.isNegative_of_pos (by positivity)

theorem toRat_eq_zero_iff {x : Binary64} {a : Int} (hx : x.Is (a / 2 ^ u)) : x.toRat = 0 ↔ a = 0 := by
  rw [hx.value, div_eq_zero_iff, or_iff_left (by positivity), Int.cast_eq_zero]

/-- A point in the column of the corner is not moved to a negative zero. -/
theorem Shifts.unsigned_x (h : Shifts u k d ps t) (hp : p.OnGrid u) (hmem : p.units u ∈ board u ps)
    (hcorner : (cornerOf ps).x = p.x) : (t.apply p).x.Unsigned := by
  rcases h.left with hleft | ⟨-, g, hg, -, hd⟩
  · rw [CoordTransform.apply, hleft, hcorner]
    exact Binary.unsigned_add_neg_mul hp.on.x.finite h.scale.finite h.isNegative_scale
  · intro hzero
    have hcolumn := h.column _ hmem
    rw [(toRat_eq_zero_iff (h.on hp hmem).x).1 hzero] at hcolumn
    have hunits := hp.on.x.units_unique (hcorner ▸ h.cornerOn.x)
    omega

theorem Shifts.unsigned_y (h : Shifts u k d ps t) (hp : p.OnGrid u)
    (hcorner : (cornerOf ps).y = p.y) : (t.apply p).y.Unsigned := by
  rw [CoordTransform.apply, h.low, hcorner]
  exact Binary.unsigned_add_neg_mul hp.on.y.finite h.scale.finite h.isNegative_scale

theorem lt_iff_of_column {a b v w e : Int} (ha : (a + e) * 2 = 2 ^ k * v)
    (hb : (b + e) * 2 = 2 ^ k * w) : a < b ↔ v < w := by
  have hpos : (0 : Int) < 2 ^ k := by positivity
  rw [← mul_lt_mul_iff_right₀ hpos (b := v), ← ha, ← hb]
  omega

/-- The corner of the moved points has no negative zeros. -/
theorem Shifts.unsigned_corner (h : Shifts u k d ps t) (hne : ps ≠ []) (hps : ∀ p ∈ ps, p.OnGrid u) :
    (cornerOf (ps.map t.apply)).x.Unsigned ∧ (cornerOf (ps.map t.apply)).y.Unsigned := by
  have hmem {p : Point} (hp : p ∈ ps) : p.units u ∈ board u ps := List.mem_map_of_mem hp
  obtain ⟨q, hq, -, hcorner, hcorner'⟩ := exists_leastOf hne (fun p hp => (hps p hp).on.x)
    (fun p hp => (h.on (hps p hp) (hmem hp)).x)
    fun p hp q hq => lt_iff_of_column (h.column _ (hmem hp)) (h.column _ (hmem hq))
  obtain ⟨r, hr, -, hrow, hrow'⟩ := exists_leastOf hne (fun p hp => (hps p hp).on.y)
    (fun p hp => (h.on (hps p hp) (hmem hp)).y)
    fun p hp q hq => lt_iff_of_column (h.row _ (hmem hp)) (h.row _ (hmem hq))
  rw [cornerOf, List.map_map, List.map_map]
  constructor
  · exact hcorner'.symm ▸ h.unsigned_x (hps q hq) (hmem hq) hcorner
  · exact hrow'.symm ▸ h.unsigned_y (hps r hr) hrow

/-- A transform that does not shift adds negative zeros. -/
theorem Shifts.isNegative_dx (h : Shifts u k d ps t) (hcorner : (cornerOf ps).x.Unsigned) (hd : d.1 = 0) :
    t.dx.isNegative = true := by
  have hdx := h.dx
  have hx := h.cornerOn.x
  rcases h.left with hleft | ⟨hright, g, hg, hstep, hshift⟩
  · rw [hleft] at hdx ⊢
    have hunits := (is_neg hx).units_unique hdx
    rw [Binary.isNegative_neg, hcorner ((toRat_eq_zero_iff hx).2 (by omega))]
    rfl
  · have hunits : (corner (board u ps)).1 = g := by omega
    rw [hunits] at hx
    have hsum : (cornerOf ps).x.toRat + (-gridStep ps).toRat = 0 := by
      rw [hx.value, hstep.neg.value]
      push_cast
      ring
    have hpositive := hx.isNegative_of_pos (by push_cast; positivity)
    rw [hright, Binary.isNegative_neg, Binary.sub_of_finite hx.finite hstep.finite,
      Binary.add_of_finite hx.finite hstep.neg.finite, hsum, Binary.isNegative_ofRat_zero, hpositive]
    rfl

theorem Shifts.isNegative_dy (h : Shifts u k d ps t) (hcorner : (cornerOf ps).y.Unsigned) (hd : d.2 = 0) :
    t.dy.isNegative = true := by
  have hdy := h.dy
  rw [h.low] at hdy ⊢
  have hunits := (is_neg h.cornerOn.y).units_unique hdy
  rw [Binary.isNegative_neg, hcorner ((toRat_eq_zero_iff h.cornerOn.y).2 (by omega))]
  rfl

/-- A coordinate of a point that is moved to itself stays the same number. -/
theorem Shifts.coordinate_eq (h : Shifts 1 k d ps t) {x dx : Binary64} {a b : Int} (hx : x.Is (a / 2 ^ 1))
    (hdx : dx.Is (b / 2 ^ 1)) (hsign : b = 0 → dx.isNegative = true) (hcolumn : (a + b) * 2 = 2 ^ k * a)
    (hmoved : ((x + dx) * t.scale).Is (a / 2 ^ 1)) : (x + dx) * t.scale = x := by
  by_cases ha : a = 0
  · subst ha
    have hb : b = 0 := by omega
    subst hb
    rw [Int.cast_zero, zero_div] at hx hdx
    exact Binary.zero_add_mul hx hdx (hsign rfl) h.scale.finite h.isNegative_scale
  · exact hmoved.unique hx (div_ne_zero (Int.cast_ne_zero.2 ha) (by positivity))

theorem Shifts.apply_eq (h : Shifts 1 k d ps t) (hp : p.OnGrid 1) (hmem : p.units 1 ∈ board 1 ps)
    (hcorner : (cornerOf ps).x.Unsigned ∧ (cornerOf ps).y.Unsigned)
    (hfix : target (2 ^ (8 + 1)) (board 1 ps) (p.units 1) = p.units 1) : t.apply p = p := by
  have hcolumn := h.column _ hmem
  have hrow := h.row _ hmem
  have hon := h.on hp hmem
  rw [hfix] at hcolumn hrow hon
  rw [CoordTransform.apply, h.coordinate_eq hp.on.x h.dx (h.isNegative_dx hcorner.1) hcolumn hon.x,
    h.coordinate_eq hp.on.y h.dy (h.isNegative_dy hcorner.2) hrow hon.y]

theorem distinctPoints_subset (c : Circuit) : c.distinctPoints ⊆ c.packed.toList :=
  (eraseDupsBy_sublist _ _).subset

theorem exists_distinct (hp : p ∈ c.packed.toList) : ∃ q ∈ c.distinctPoints, q.place = p.place := by
  have hplace : p.place ∈ c.distinctPoints.map Point.place := by
    rw [distinctPoints, map_eraseDupsBy, List.mem_eraseDups]
    exact List.mem_map_of_mem hp
  exact List.mem_map.1 hplace

theorem mem_board_distinct (h : ∀ p ∈ c.packed.toList, p.OnGrid u) {z : Int × Int} :
    z ∈ board u c.distinctPoints ↔ z ∈ board u c.packed.toList := by
  constructor
  · exact fun hz => List.map_subset _ (distinctPoints_subset c) hz
  · intro hz
    obtain ⟨p, hp, rfl⟩ := List.mem_map.1 hz
    obtain ⟨q, hq, hplace⟩ := exists_distinct hp
    rw [← ((h q (distinctPoints_subset c hq)).on.place_eq_iff (h p hp).on).1 hplace]
    exact List.mem_map_of_mem hq

theorem packed_rectified (c : Circuit) :
    c.rectified.packed.toList = c.packed.toList.map c.rectification.apply := Array.toList_map

theorem distinctPoints_rectified (hs : Shifts u k d c.distinctPoints c.rectification)
    (h : ∀ p ∈ c.packed.toList, p.OnGrid u) :
    c.rectified.distinctPoints = c.distinctPoints.map c.rectification.apply := by
  rw [distinctPoints, packed_rectified]
  refine eraseDupsBy_map fun p hp q hq => ?_
  have hboard {p : Point} (hp : p ∈ c.packed.toList) :=
    (mem_board_distinct h).2 (List.mem_map_of_mem (f := Point.units u) hp)
  rw [Bool.eq_iff_iff, beq_iff_eq, beq_iff_eq, (h p hp).on.place_eq_iff (h q hq).on,
    (hs.on (h p hp) (hboard hp)).place_eq_iff (hs.on (h q hq) (hboard hq))]
  exact ⟨target_injective (hboard hp) (hboard hq), congrArg _⟩

/-- The points have coordinates of at most `b` units. -/
structure Confined (u b : Nat) (c : Circuit) : Prop where
  on : ∀ p ∈ c.packed.toList, p.On u (p.units u)
  le : ∀ p ∈ c.packed.toList, (p.units u).1.natAbs ≤ b ∧ (p.units u).2.natAbs ≤ b

theorem Confined.onGrid {b : Nat} (h : c.Confined u b) (hb : b < 2 ^ 40) :
    ∀ p ∈ c.packed.toList, p.OnGrid u := by
  intro p hp
  obtain ⟨hx, hy⟩ := h.le p hp
  exact ⟨h.on p hp, Nat.lt_of_le_of_lt hx hb, Nat.lt_of_le_of_lt hy hb⟩

/-- A rectified layout is one of halves. -/
theorem Confined.rectified {b : Nat} (h : c.Confined u b) (hb : b < 2 ^ 40)
    (hs : Shifts u k d c.distinctPoints c.rectification) : c.rectified.Confined 1 (4 * b + 1) := by
  have hon : ∀ p ∈ c.packed.toList, (c.rectification.apply p).On 1 _ := fun p hp =>
    hs.on (h.onGrid hb p hp) ((mem_board_distinct (h.onGrid hb)).2 (List.mem_map_of_mem hp))
  have hle : ∀ z ∈ board u c.distinctPoints, z.1.natAbs ≤ b ∧ z.2.natAbs ≤ b :=
    List.forall_mem_map.2 fun p hp => h.le p (distinctPoints_subset c hp)
  constructor <;> rw [packed_rectified, List.forall_mem_map] <;> intro p hp <;> rw [(hon p hp).units_eq]
  · exact hon p hp
  · exact natAbs_target_le (by positivity) hle
      ((mem_board_distinct (h.onGrid hb)).2 (List.mem_map_of_mem hp))

theorem rectified_rectified_eq_iff (c : Circuit) : c.rectified.rectified.packed = c.rectified.packed ↔
    ∀ p ∈ c.packed.toList,
      c.rectified.rectification.apply (c.rectification.apply p) = c.rectification.apply p := by
  change (c.packed.map c.rectification.apply).map c.rectified.rectification.apply =
    c.packed.map c.rectification.apply ↔ _
  rw [Array.map_map, Array.map_inj_left]
  simp only [Array.mem_toList_iff, Function.comp_apply]

/-- Layouts that have been rectified stay as they are when their fields were settled. -/
theorem Confined.settled_iff {b : Nat} (h : c.Confined u b) (hb : 4 * b + 1 < 2 ^ 40) (hu : u ≤ 7) :
    c.rectified.rectified.packed = c.rectified.packed ↔
      Settled (2 ^ (8 + u)) (board u c.packed.toList) := by
  have hgrid := h.onGrid (by omega)
  have hboard {z : Int × Int} := mem_board_distinct (z := z) hgrid
  rw [rectified_rectified_eq_iff, ← settled_congr fun _ => hboard]
  rcases eq_or_ne c.distinctPoints [] with hnil | hne
  · have hempty : c.packed.toList = [] := by
      refine List.eq_nil_iff_forall_not_mem.2 fun p hp => ?_
      obtain ⟨q, hq, -⟩ := exists_distinct hp
      exact List.not_mem_nil (hnil ▸ hq)
    rw [hempty, hnil]
    exact iff_of_true (List.forall_mem_nil _) (.inr (.inr (List.forall_mem_nil _)))
  have hdistinct {c : Circuit} {u : Nat} (h : ∀ p ∈ c.packed.toList, p.OnGrid u) :
      ∀ p ∈ c.distinctPoints, p.OnGrid u := fun p hp => h p (distinctPoints_subset c hp)
  obtain ⟨k, d, hs⟩ := exists_shifts hu hne (hdistinct hgrid)
  have hgrid' := (h.rectified (by omega) hs).onGrid hb
  have hpoints := distinctPoints_rectified hs hgrid
  have hne' : c.rectified.distinctPoints ≠ [] := by
    rw [hpoints]
    exact fun hnil => hne (List.map_eq_nil_iff.1 hnil)
  obtain ⟨k', d', hs'⟩ := exists_shifts (by omega) hne' (hdistinct hgrid')
  have hunits {p : Point} (hp : p ∈ c.packed.toList) : (c.rectification.apply p).units 1 =
      target (2 ^ (8 + u)) (board u c.distinctPoints) (p.units u) :=
    (hs.on (hgrid p hp) (hboard.2 (List.mem_map_of_mem hp))).units_eq
  have hmoved : board 1 c.rectified.distinctPoints =
      (board u c.distinctPoints).map (target (2 ^ (8 + u)) (board u c.distinctPoints)) := by
    rw [hpoints, board, board, List.map_map, List.map_map]
    exact List.map_congr_left fun p hp => hunits (distinctPoints_subset c hp)
  have hmem {p : Point} (hp : p ∈ c.packed.toList) :
      c.rectification.apply p ∈ c.rectified.packed.toList := by
    rw [packed_rectified]
    exact List.mem_map_of_mem hp
  have hmem' {p : Point} (hp : p ∈ c.packed.toList) :
      (c.rectification.apply p).units 1 ∈ board 1 c.rectified.distinctPoints :=
    (mem_board_distinct hgrid').2 (List.mem_map_of_mem (hmem hp))
  rw [← moved_iff (2 ^ (8 + u)) 8, ← hmoved]
  constructor
  · intro hfix
    refine List.forall_mem_map.2 fun p hp => ?_
    have hp := distinctPoints_subset c hp
    have hon := hs'.on (hgrid' _ (hmem hp)) (hmem' hp)
    rw [hfix p hp] at hon
    rw [← hunits hp]
    exact hon.units_eq.symm
  · intro hfix p hp
    refine hs'.apply_eq (hgrid' _ (hmem hp)) (hmem' hp) ?_ ?_
    · rw [hpoints]
      exact hs.unsigned_corner hne (hdistinct hgrid)
    · rw [hunits hp]
      exact hfix _ (hboard.2 (List.mem_map_of_mem hp))

/-- A point with whole coordinates of magnitude at most `2 ^ 20`. -/
def NearWhole (p : Point) : Prop :=
  (p.x.isWhole ∧ |p.x.toRat| ≤ 2 ^ 20) ∧ p.y.isWhole ∧ |p.y.toRat| ≤ 2 ^ 20

instance (p : Point) : Decidable (NearWhole p) := inferInstanceAs (Decidable (_ ∧ _))

theorem exists_int_of_isWhole {x : Binary64} (h : x.isWhole) (hle : |x.toRat| ≤ 2 ^ 20) :
    ∃ a : Int, x.Is (a / 2 ^ 0) ∧ a.natAbs ≤ 2 ^ 20 := by
  have hfinite : x.isFinite := by
    cases x with
    | nan => cases h
    | infinite => cases h
    | finite => rfl
  obtain ⟨negative, m, e, hcanonical, rfl⟩ := Binary.exists_eq_finite hfinite
  have hnum := Rat.coe_int_num_of_den_eq_one (beq_iff_eq.1 h)
  refine ⟨(Binary.finite negative m e hcanonical).toRat.num, ⟨rfl, ?_⟩, ?_⟩
  · rw [pow_zero, div_one]
    exact hnum.symm
  · rw [← hnum, ← Int.cast_abs, Int.abs_eq_natAbs] at hle
    exact_mod_cast hle

theorem confined_of_nearWhole (h : ∀ p ∈ c.packed.toList, NearWhole p) : c.Confined 0 (2 ^ 20) := by
  have hcoordinates (p : Point) (hp : p ∈ c.packed.toList) :
      ∃ a b : Int, p.On 0 (a, b) ∧ a.natAbs ≤ 2 ^ 20 ∧ b.natAbs ≤ 2 ^ 20 := by
    obtain ⟨⟨hx, hxle⟩, hy, hyle⟩ := h p hp
    obtain ⟨a, ha, hale⟩ := exists_int_of_isWhole hx hxle
    obtain ⟨b, hb, hble⟩ := exists_int_of_isWhole hy hyle
    exact ⟨a, b, ⟨ha, hb⟩, hale, hble⟩
  constructor <;> intro p hp <;> obtain ⟨a, b, hon, hle⟩ := hcoordinates p hp <;> rw [hon.units_eq]
  · exact hon
  · exact hle

/-- **Rectifying twice.** A layout of whole coordinates is left alone by a second rectification exactly when its
points are settled. The step that is found is that of a grid through the origin. It has to be the coarsest one of
a grid through the corner as well, or half of it with both colours taken; a single place is always settled. -/
theorem rectified_rectified (c : Circuit) (h : ∀ p ∈ c.packed.toList, NearWhole p) :
    c.rectified.rectified.packed = c.rectified.packed ↔
      Settled 256 (c.packed.toList.map (Point.units 0)) :=
  (confined_of_nearWhole h).settled_iff (by norm_num) (by norm_num)

/-- Two points in a row. -/
def row (x y : Nat) : Circuit := { packed := #[⟨.ofNat .binary64 x, .zero⟩, ⟨.ofNat .binary64 y, .zero⟩] }

/-- Where a row stands decides whether its rectification is rectified again. -/
theorem rectified_rectified_row : (∀ p ∈ (row 1 5).packed.toList, NearWhole p) ∧
    (row 1 5).rectified.rectified.packed ≠ (row 1 5).rectified.packed ∧
    (row 0 4).rectified.rectified.packed = (row 0 4).rectified.packed := by
  have hfirst : ∀ p ∈ (row 1 5).packed.toList, NearWhole p := by decide +kernel
  have hsecond : ∀ p ∈ (row 0 4).packed.toList, NearWhole p := by decide +kernel
  refine ⟨hfirst, fun heq => ?_, (rectified_rectified _ hsecond).2 (by decide +kernel)⟩
  exact absurd ((rectified_rectified _ hfirst).1 heq) (by decide +kernel)

end Circuit

end StimOverlay
