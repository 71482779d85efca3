import StimOverlay.Proofs.Circuit.PackedCoordinates
import StimOverlay.Proofs.Circuit.QubitPositions

/-! Filled in coordinates. One cursor moves along the axis for all qubits that a text declares no
coordinates of, and stops for each of them at the next place that is not used. It passes over no free
place, takes no declared one, and always gets to the end. -/

namespace StimOverlay

open Build Numeric

namespace Numeric.Binary

variable {f : Format}

theorem isNegative_ofFraction (negative : Bool) (a b : Nat) :
    (ofFraction f negative a b).isNegative = negative := by
  unfold ofFraction
  extract_lets exponent significand
  split
  · rfl
  · split <;> rfl

theorem ofRat_natCast (n : Nat) : ofRat f false (n : Rat) = ofNat f n := by
  have hsign : (if (n : Rat) = 0 then false else decide ((n : Rat) < 0)) = false := by
    rw [decide_eq_false (Nat.cast_nonneg n).not_gt, ite_self]
  rw [ofRat, hsign, ofNat, Rat.num_natCast, Rat.den_natCast, Int.natAbs_natCast]

/-- Whole numbers are added exactly as long as the sum fits the significand. -/
theorem add_ofNat (hf : f.Ample) {m n : Nat} (h : m + n < 2 ^ f.precision) :
    ofNat f m + ofNat f n = ofNat f (m + n) := by
  obtain ⟨hm, hmvalue⟩ := toRat_ofNat hf (Nat.lt_of_le_of_lt (Nat.le_add_right m n) h)
  obtain ⟨hn, hnvalue⟩ := toRat_ofNat hf (Nat.lt_of_le_of_lt (Nat.le_add_left n m) h)
  have hsign := isNegative_ofFraction (f := f) false m 1
  change (ofNat f m).isNegative = false at hsign
  change add (ofNat f m) (ofNat f n) = _
  generalize ofNat f m = x at hm hmvalue hsign
  generalize ofNat f n = y at hn hnvalue
  cases x with
  | nan s => cases hm
  | infinite s => cases hm
  | finite s k e hx =>
      cases y with
      | nan t => cases hn
      | infinite t => cases hn
      | finite t l d hy =>
          change s = false at hsign
          rw [add, hmvalue, hnvalue, hsign, Bool.false_and, ← Nat.cast_add, ofRat_natCast]

end Numeric.Binary

namespace Circuit

/-- The search for a place: in steps of one from `x` on, up to the first place that is not used. -/
inductive Seeks (used : List Point) : Binary64 → Binary64 → Prop where
  | stop {x : Binary64} (free : Point.place ⟨x, .zero⟩ ∉ used) : Seeks used x x
  | step {x y : Binary64} (taken : Point.place ⟨x, .zero⟩ ∈ used)
      (rest : Seeks used (x + .ofNat .binary64 1) y) : Seeks used x y

/-- Gives coordinates to those of the qubits that have none. The search for a place goes on from the
place that was found last. -/
inductive Fills : List Point → Binary64 → List QubitId → Std.TreeMap QubitId Point →
    Std.TreeMap QubitId Point → Prop where
  | done (used : List Point) (x : Binary64) (coords : Std.TreeMap QubitId Point) :
      Fills used x [] coords coords
  | kept {used : List Point} {x : Binary64} {q : QubitId} {qs : List QubitId}
      {coords result : Std.TreeMap QubitId Point} (has : coords.contains q)
      (rest : Fills used x qs coords result) : Fills used x (q :: qs) coords result
  | given {used : List Point} {x y : Binary64} {q : QubitId} {qs : List QubitId}
      {coords result : Std.TreeMap QubitId Point} (has : ¬coords.contains q) (seeks : Seeks used x y)
      (rest : Fills (Point.place ⟨y, .zero⟩ :: used) y qs (coords.insert q ⟨y, .zero⟩) result) :
      Fills used x (q :: qs) coords result

theorem Seeks.unique {used : List Point} {x y z : Binary64} (hy : Seeks used x y)
    (hz : Seeks used x z) : y = z := by
  induction hy with
  | stop free =>
      cases hz with
      | stop _ => rfl
      | step taken _ => exact absurd taken free
  | step taken _ ih =>
      cases hz with
      | stop free => exact absurd taken free
      | step _ rest => exact ih rest

theorem Fills.unique {used : List Point} {x : Binary64} {qs : List QubitId}
    {coords result result' : Std.TreeMap QubitId Point} (h : Fills used x qs coords result)
    (h' : Fills used x qs coords result') : result = result' := by
  induction h with
  | done used x coords =>
      cases h' with
      | done => rfl
  | kept has _ ih =>
      cases h' with
      | kept _ rest => exact ih rest
      | given hasNot _ _ => exact absurd has hasNot
  | given hasNot seeks _ ih =>
      cases h' with
      | kept has _ => exact absurd has hasNot
      | given _ seeks' rest =>
          cases seeks.unique seeks'
          exact ih rest

/-- Free whole numbers from `a` on: the places of those left out before the last one are used. -/
structure Gaps (used : List Point) (a : Nat) (xs : List Nat) : Prop where
  ascending : xs.Pairwise (· < ·)
  above : ∀ x ∈ xs, a ≤ x
  small : ∀ x ∈ xs, x < 2 ^ 53
  free : ∀ x ∈ xs, axisPlace x ∉ used
  taken : ∀ x ∈ xs, ∀ y, a ≤ y → y < x → y ∉ xs → axisPlace y ∈ used

namespace Gaps

variable {used : List Point} {a x : Nat} {xs : List Nat}

/-- A free number that has been used is behind the cursor. -/
theorem tail (h : Gaps used a (x :: xs)) : Gaps (axisPlace x :: used) x xs where
  ascending := List.Pairwise.of_cons h.ascending
  above y hy := Nat.le_of_lt (List.rel_of_pairwise_cons h.ascending hy)
  small y hy := h.small y (List.mem_cons_of_mem x hy)
  free y hy := by
    have hlt := List.rel_of_pairwise_cons h.ascending hy
    rw [List.mem_cons, not_or]
    refine ⟨fun heq => ?_, h.free y (List.mem_cons_of_mem x hy)⟩
    have hsame := axisPlace_injective (h.small y (List.mem_cons_of_mem x hy))
      (h.small x List.mem_cons_self) heq
    exact absurd hlt (hsame ▸ Nat.lt_irrefl _)
  taken y hy z hz hlt hmem := by
    by_cases hxz : z = x
    · rw [hxz]
      exact List.mem_cons_self
    · refine List.mem_cons_of_mem _ (h.taken y (List.mem_cons_of_mem x hy) z ?_ hlt ?_)
      · exact (h.above x List.mem_cons_self).trans hz
      · rw [List.mem_cons, not_or]
        exact ⟨hxz, hmem⟩

theorem left {ys : List Nat} (h : Gaps used a (xs ++ ys)) : Gaps used a xs where
  ascending := (List.pairwise_append.1 h.ascending).1
  above x hx := h.above x (List.mem_append_left ys hx)
  small x hx := h.small x (List.mem_append_left ys hx)
  free x hx := h.free x (List.mem_append_left ys hx)
  taken x hx y hy hlt hmem := by
    refine h.taken x (List.mem_append_left ys hx) y hy hlt ?_
    rw [List.mem_append, not_or]
    refine ⟨hmem, fun hright => ?_⟩
    exact Nat.lt_asymm hlt ((List.pairwise_append.1 h.ascending).2.2 x hx y hright)

/-- The search gets from the cursor to the first free number. -/
theorem seeks (h : Gaps used a (x :: xs)) :
    Seeks used (.ofNat .binary64 a) (.ofNat .binary64 x) := by
  have hx := List.mem_cons_self (a := x) (l := xs)
  have hsmall := h.small x hx
  obtain ⟨d, hd⟩ : ∃ d, x = a + d := ⟨x - a, by have := h.above x hx; omega⟩
  induction d generalizing a with
  | zero =>
      rw [show x = a from hd]
      apply Seeks.stop
      change (axisPlace a).place ∉ used
      rw [place_axisPlace (by omega), ← show x = a from hd]
      exact h.free x hx
  | succ d ih =>
      have hbehind : a ∉ x :: xs := by
        rw [List.mem_cons, not_or]
        refine ⟨by omega, fun hmem => ?_⟩
        have hlt := List.rel_of_pairwise_cons h.ascending hmem
        omega
      apply Seeks.step
      · change (axisPlace a).place ∈ used
        rw [place_axisPlace (by omega)]
        exact h.taken x hx a (Nat.le_refl a) (by omega) hbehind
      · rw [Binary.add_ofNat Format.ample_binary64
          (show a + 1 < 2 ^ 53 by omega)]
        refine ih ⟨h.ascending, fun y hy => ?_, h.small, h.free, fun y hy z hz =>
          h.taken y hy z (by omega)⟩ (by omega)
        have hle := h.above y hy
        have hne : y ≠ a := fun heq => hbehind (heq ▸ hy)
        omega

end Gaps

/-- The qubits among `qs` that have no coordinates get the free numbers one after another. -/
theorem fills_of_gaps {qs : List QubitId} (hnodup : qs.Nodup) {used : List Point} {a : Nat}
    {xs : List Nat} (h : Gaps used a xs) {coords : Std.TreeMap QubitId Point}
    (hlength : (qs.filter (!coords.contains ·)).length ≤ xs.length) :
    Fills used (.ofNat .binary64 a) qs coords
      (((qs.filter (!coords.contains ·)).zip xs).foldl
        (fun coords entry => coords.insert entry.1 (axisPlace entry.2)) coords) := by
  induction qs generalizing used a xs coords with
  | nil => exact .done _ _ _
  | cons q qs ih =>
      obtain ⟨hq, hnodup⟩ := List.nodup_cons.1 hnodup
      by_cases hcontains : coords.contains q = true
      · rw [List.filter_cons_of_neg (by simp [hcontains])] at hlength ⊢
        exact .kept hcontains (ih hnodup h hlength)
      · rw [List.filter_cons_of_pos (by simp [hcontains])] at hlength ⊢
        cases xs with
        | nil => simp at hlength
        | cons x xs =>
            have hsame : qs.filter (!(coords.insert q (axisPlace x)).contains ·) =
                qs.filter (!coords.contains ·) := by
              refine List.filter_congr fun r hr => ?_
              have hne : q ≠ r := fun heq => hq (heq ▸ hr)
              rw [Std.TreeMap.contains_eq_isSome_getElem?, getElem?_insert_of_nat, if_neg hne,
                ← Std.TreeMap.contains_eq_isSome_getElem?]
            have hshorter : (qs.filter (!(coords.insert q (axisPlace x)).contains ·)).length ≤
                xs.length := by
              rw [hsame]
              exact Nat.le_of_succ_le_succ hlength
            have hrest := ih hnodup h.tail hshorter
            rw [hsame] at hrest
            refine .given hcontains h.seeks ?_
            change Fills ((axisPlace x).place :: used) _ _ _ _
            rw [place_axisPlace (h.small x List.mem_cons_self)]
            exact hrest

/-- The places that qubits are declared at. -/
def declaredPlaces (coords : Std.TreeMap QubitId Point) : List Point :=
  coords.toList.map fun entry => entry.2.place

/-- `coords` are `declared` ones together with those that the qubits below `n` without any got: the
places of the numbers in `xs`, in order. -/
structure Filled (declared coords : Std.TreeMap QubitId Point) (n : Nat) (xs : List Nat) : Prop where
  keys : coords.keys = List.range n
  kept : ∀ (q : QubitId) (p : Point), declared[q]? = some p → coords[q]? = some p
  length : xs.length = ((List.range n).filter (!declared.contains ·)).length
  given : ∀ (k : Nat) (q : QubitId) (x : Nat),
    ((List.range n).filter (!declared.contains ·))[k]? = some q → xs[k]? = some x →
      coords[q]? = some ⟨.ofNat .binary64 x, .zero⟩
  exact : ∀ x ∈ xs, (Binary.ofNat .binary64 x).isFinite ∧ (Binary.ofNat .binary64 x).toRat = x
  ascending : xs.Pairwise (· < ·)
  free : ∀ x ∈ xs, Point.place ⟨.ofNat .binary64 x, .zero⟩ ∉ declaredPlaces declared
  gapless : ∀ x ∈ xs, ∀ y < x, y ∉ xs →
    Point.place ⟨.ofNat .binary64 y, .zero⟩ ∈ declaredPlaces declared

variable {c : Circuit}

theorem mem_taken {x : Nat} :
    (((c.coords.toList.map fun entry => entry.2.place).filter fun p => p.y.isZero).contains
      (axisPlace x) = true) ↔ axisPlace x ∈ declaredPlaces c.coords := by
  rw [List.contains_iff_mem, List.mem_filter]
  exact ⟨And.left, fun h => ⟨h, rfl⟩⟩

/-- The free places of a circuit are the numbers that its search finds. -/
theorem gaps_freePlaces {count : Nat} (hsmall : count + c.coords.size ≤ 2 ^ 53) :
    Gaps (declaredPlaces c.coords) 0 (c.freePlaces count) where
  ascending := List.pairwise_lt_range.filter _
  above x _ := Nat.zero_le x
  small x hx := Nat.lt_of_lt_of_le (List.mem_range.1 (List.mem_of_mem_filter hx)) hsmall
  free x hx hmem := by
    have hfree := (List.mem_filter.1 hx).2
    rw [mem_taken.2 hmem] at hfree
    cases hfree
  taken x hx y _ hlt hy := by
    have hrange := List.mem_range.1 (List.mem_of_mem_filter hx)
    by_contra hmem
    refine hy (List.mem_filter.2 ⟨List.mem_range.2 (hlt.trans hrange), ?_⟩)
    rw [Bool.not_eq_true', ← Bool.not_eq_true]
    exact fun h => hmem (mem_taken.1 h)

theorem length_undeclared_le (h : c.Drafted) : (c.undeclared c.extent).length ≤ maxQubitId + 1 :=
  ((List.length_filter_le _ _).trans_eq List.length_range).trans (extent_le h)

theorem length_undeclared_le_freePlaces (h : c.Drafted) :
    (c.undeclared c.extent).length ≤ (c.freePlaces (c.undeclared c.extent).length).length := by
  by_contra hlt
  have hmax := length_undeclared_le h
  obtain ⟨x, -, hx⟩ := exists_freePlace (size_coords_le h.situated) (Nat.not_le.1 hlt) (by omega)
  exact absurd (List.getElem?_eq_some_iff.1 hx).1 (Nat.lt_irrefl _)

theorem gaps_completedCoords (h : c.Drafted) : Gaps (declaredPlaces c.coords) 0
    (c.freePlaces (c.undeclared c.extent).length) := by
  have hcount := length_undeclared_le h
  have hsize := size_coords_le h.situated
  have hmax : (1048575 : Nat) = maxQubitId := rfl
  exact gaps_freePlaces (by omega)

theorem fills_completedCoords (h : c.Drafted) :
    Fills (declaredPlaces c.coords) .zero (List.range c.extent) c.coords c.completedCoords := by
  have hzero : (Binary.zero : Binary64) = .ofNat .binary64 0 := (Binary.ofFraction_zero false 1).symm
  rw [hzero]
  exact fills_of_gaps List.nodup_range (gaps_completedCoords h) (length_undeclared_le_freePlaces h)

theorem exists_filled_completedCoords (h : c.Drafted) :
    ∃ xs, Filled c.coords c.completedCoords c.extent xs := by
  -- As many of the free numbers are found as there are qubits to be placed.
  obtain ⟨xs, ys, hfree, hlength⟩ : ∃ xs ys,
      c.freePlaces (c.undeclared c.extent).length = xs ++ ys ∧
        xs.length = (c.undeclared c.extent).length :=
    ⟨_, _, (List.take_append_drop (c.undeclared c.extent).length _).symm,
      List.length_take_of_le (length_undeclared_le_freePlaces h)⟩
  have hgaps : Gaps (declaredPlaces c.coords) 0 xs :=
    Gaps.left (hfree ▸ gaps_completedCoords h)
  refine ⟨xs, keys_completedCoords h, fun q p hp => ?_, hlength, fun k q x hq hx => ?_,
    fun x hx => ?_, hgaps.ascending, fun x hx => ?_, fun x hx y hlt hy => ?_⟩
  · rcases completedCoords_cases h.situated (h.situated.named q p hp)
      (lt_extent (List.mem_append_right _ (mem_keys.2 ⟨p, hp⟩))) with
      ⟨p', hp', hcompleted⟩ | ⟨-, -, hnone, -⟩
    · rw [hcompleted, ← hp', hp]
    · rw [hp] at hnone
      cases hnone
  · have hfst := map_fst_zip_sublist (c.undeclared c.extent)
      (c.freePlaces (c.undeclared c.extent).length)
    refine getElem?_foldl_insert_of_mem (hfst.nodup (c.nodup_undeclared _)) ?_ _
    refine List.mem_of_getElem? (List.getElem?_zip_eq_some.2 ⟨hq, ?_⟩)
    rw [hfree, List.getElem?_append_left (List.getElem?_eq_some_iff.1 hx).1, hx]
  · exact Binary.toRat_ofNat Format.ample_binary64 (hgaps.small x hx)
  · change (axisPlace x).place ∉ _
    rw [place_axisPlace (hgaps.small x hx)]
    exact hgaps.free x hx
  · change (axisPlace y).place ∈ _
    rw [place_axisPlace (hlt.trans (hgaps.small x hx))]
    exact hgaps.taken x hx y (Nat.zero_le y) hlt hy

end Circuit

namespace Build

open Circuit

/-- The declarations that acts make and the circuit accepts, in order. -/
def declarations (ctx : Context) (s : State) : List Act → List (QubitId × Point)
  | [] => []
  | a :: rest => (s.accepted? a).toList ++ declarations ctx (s.after ctx a) rest

/-- The coordinates behind acts are those of the last declarations among them. -/
theorem getElem?_coords_foldl (ctx : Context) (acts : List Act) (s : State) (q : QubitId) :
    (acts.foldl (State.after ctx) s).circuit.coords[q]? =
      (lastOf (declaredFor q) (declarations ctx s acts)).or s.circuit.coords[q]? := by
  induction acts generalizing s with
  | nil => rfl
  | cons a rest ih =>
      rw [List.foldl_cons, ih, declarations, lastOf_append, Option.or_assoc, coords_after]
      congr 1
      rw [lastOf_toList]
      cases s.accepted? a with
      | none => rfl
      | some e =>
          rw [enter, getElem?_insert_of_nat, Option.bind_some, declaredFor]
          split_ifs <;> rfl

variable (ctx : Context) (text : String)

/-- The declarations in a text that are accepted, a repetition as often as it is built. -/
def acceptedIn : List (QubitId × Point) :=
  declarations ctx {} (course ctx (Source.normalize text.toList))

theorem getElem?_coords_draft (q : QubitId) :
    (draft ctx text).coords[q]? = lastOf (declaredFor q) (acceptedIn ctx text) := by
  rw [draft, finalState_eq_stateAfter, stateAfter, getElem?_coords_foldl]
  exact Option.or_none

/-- Qubits keep the coordinates that they are declared at last. The others up to the greatest one get the
places of the least whole numbers that nobody declares, in order, and the search for them ends. -/
theorem parseWith_filled : ∃ (declared : Std.TreeMap QubitId Point) (xs : List Nat),
    (∀ q : QubitId, declared[q]? = lastOf (declaredFor q) (acceptedIn ctx text)) ∧
      Filled declared (parseWith ctx text).circuit.coords (draft ctx text).extent xs ∧
        ∀ result, Fills (declaredPlaces declared) .zero (List.range (draft ctx text).extent)
          declared result ↔ result = (parseWith ctx text).circuit.coords := by
  have h := drafted_draft ctx text
  have hcoords : (parseWith ctx text).circuit.coords = (draft ctx text).completedCoords := by
    rw [(tables_parseWith ctx text).1, coords_complete]
  obtain ⟨xs, hfilled⟩ := exists_filled_completedCoords h
  refine ⟨(draft ctx text).coords, xs, getElem?_coords_draft ctx text, ?_, fun result => ?_⟩
  · rw [hcoords]
    exact hfilled
  · rw [hcoords]
    constructor
    · intro hfills
      exact Fills.unique hfills (fills_completedCoords h)
    · intro hresult
      rw [hresult]
      exact fills_completedCoords h

end Build

end StimOverlay
