import StimOverlay.Proofs.Layer.LayeredRuns
import StimOverlay.Proofs.Numeric.NearestRounding
import StimOverlay.Proofs.Run.DeclaredPlaces

/-! Completed coordinates. Every qubit that text can name has a place of its own in the end: the one it
was declared at, or a whole place on the axis that nothing else has. -/

namespace StimOverlay

open Build Numeric

theorem getElem?_of_ascending {l : List Nat} (h : l.Pairwise (· < ·)) {a q : Nat}
    (hlow : ∀ x ∈ l, a ≤ x) (hall : ∀ r, a ≤ r → r ≤ a + q → r ∈ l) : l[q]? = some (a + q) := by
  induction q generalizing l a with
  | zero =>
      obtain ⟨x, rest, rfl⟩ := List.exists_cons_of_ne_nil
        (List.ne_nil_of_mem (hall a (by omega) (by omega)))
      rcases List.mem_cons.1 (hall a (by omega) (by omega)) with hx | hx
      · rw [List.getElem?_cons_zero, hx]
        rfl
      · have hlt := List.rel_of_pairwise_cons h hx
        have hle := hlow x List.mem_cons_self
        omega
  | succ q ih =>
      obtain ⟨x, rest, rfl⟩ := List.exists_cons_of_ne_nil
        (List.ne_nil_of_mem (hall a (by omega) (by omega)))
      have hx : x = a := by
        rcases List.mem_cons.1 (hall a (by omega) (by omega)) with hx | hx
        · exact hx.symm
        · have hlt := List.rel_of_pairwise_cons h hx
          have hle := hlow x List.mem_cons_self
          omega
      have hrest : rest[q]? = some (a + 1 + q) := by
        refine ih (List.Pairwise.of_cons h) (fun y hy => ?_) fun r hr hr' => ?_
        · have hlt := List.rel_of_pairwise_cons h hy
          omega
        · rcases List.mem_cons.1 (hall r (by omega) (by omega)) with hrx | hmem
          · omega
          · exact hmem
      rw [List.getElem?_cons_succ, hrest]
      congr 1
      omega

theorem map_fst_zip_sublist (l : List α) (m : List β) : ((l.zip m).map (·.1)).Sublist l := by
  induction l generalizing m with
  | nil => exact List.Sublist.refl _
  | cons a l ih =>
      cases m with
      | nil => exact List.nil_sublist _
      | cons b m => exact (ih m).cons_cons a

namespace Numeric.Binary

theorem unsignedZero_ofNat {f : Format} (hf : f.Ample) {n : Nat} (hn : n < 2 ^ f.precision) :
    (ofNat f n).unsignedZero = ofNat f n := by
  by_cases hzero : n = 0
  · rw [hzero, ofNat, ofFraction_zero]
    rfl
  · obtain ⟨m, e, hm, h, hvalue⟩ := exists_canonical hf (Nat.pos_of_ne_zero hzero) (hf.holds hn)
    rw [ofNat, ofFraction_of_canonical hf.precision_pos hm h Nat.one_pos (by simp [hvalue]),
      unsignedZero, if_neg hm.ne']

theorem ofNat_injective {f : Format} (hf : f.Ample) {m n : Nat} (hm : m < 2 ^ f.precision)
    (hn : n < 2 ^ f.precision) (h : ofNat f m = ofNat f n) : m = n := by
  have hm := (toRat_ofNat hf hm).2
  rw [h, (toRat_ofNat hf hn).2] at hm
  exact_mod_cast hm.symm

end Numeric.Binary

namespace Circuit

theorem place_axisPlace {x : Nat} (hx : x < 2 ^ 53) : (axisPlace x).place = axisPlace x := by
  have hunsigned := Binary.unsignedZero_ofNat Format.ample_binary64 hx
  rw [Point.place, axisPlace, hunsigned]
  rfl

theorem axisPlace_injective {x y : Nat} (hx : x < 2 ^ 53) (hy : y < 2 ^ 53)
    (h : axisPlace x = axisPlace y) : x = y :=
  Binary.ofNat_injective Format.ample_binary64 hx hy (congrArg Point.x h)

variable {c : Circuit}

/-- The position of a qubit among those without coordinates. -/
theorem exists_undeclared {n q : Nat} (hq : q < n) (hnone : c.coords[q]? = none) :
    ∃ k ≤ q, (c.undeclared n)[k]? = some q := by
  obtain ⟨m, rfl⟩ : ∃ m, n = q + (m + 1) := ⟨n - q - 1, by omega⟩
  have hfree : (!c.coords.contains q) = true := by
    rw [Std.TreeMap.contains_eq_isSome_getElem?, hnone]
    rfl
  refine ⟨((List.range q).filter (!c.coords.contains ·)).length, ?_, ?_⟩
  · exact (List.length_filter_le _ _).trans (by simp)
  · have hlater : ((List.range (m + 1)).map (q + ·)).filter (!c.coords.contains ·) =
        q :: ((List.range m).map (q + ·.succ)).filter (!c.coords.contains ·) := by
      rw [List.range_succ_eq_map, List.map_cons, List.map_map, Nat.add_zero]
      exact List.filter_cons_of_pos hfree
    rw [undeclared, List.range_add, List.filter_append, hlater,
      List.getElem?_append_right (Nat.le_refl _), Nat.sub_self, List.getElem?_cons_zero]

theorem nodup_undeclared (c : Circuit) (n : Nat) : (c.undeclared n).Nodup :=
  List.nodup_range.filter _

theorem nodup_freePlaces (c : Circuit) (count : Nat) : (c.freePlaces count).Nodup :=
  List.nodup_range.filter _

/-- At most as many whole places are taken as there are coordinates. -/
theorem length_taken_le (c : Circuit) {m : Nat} (hm : m ≤ 2 ^ 53) {taken : List Point}
    (htaken : taken.length ≤ c.coords.size) :
    ((List.range m).filter fun x => taken.contains (axisPlace x)).length ≤ c.coords.size := by
  let found := ((List.range m).filter fun x => taken.contains (axisPlace x)).map axisPlace
  have hnodup : found.Nodup := by
    refine List.Nodup.map_on (fun x hx y hy h => ?_) (List.nodup_range.filter _)
    have hx := List.mem_range.1 (List.mem_of_mem_filter hx)
    have hy := List.mem_range.1 (List.mem_of_mem_filter hy)
    exact axisPlace_injective (by omega) (by omega) h
  have hsubset : found ⊆ taken := by
    intro p hp
    obtain ⟨x, hx, rfl⟩ := List.mem_map.1 hp
    simpa using (List.mem_filter.1 hx).2
  have hlength := (hnodup.subperm hsubset).length_le
  rw [List.length_map] at hlength
  exact hlength.trans htaken

theorem exists_freePlace (hsize : c.coords.size ≤ maxQubitId + 1) {count k : Nat} (hk : k < count)
    (hle : k ≤ maxQubitId) : ∃ x < 2 ^ 53, (c.freePlaces count)[k]? = some x := by
  let onAxis := (c.coords.toList.map fun entry => entry.2.place).filter fun p => p.y.isZero
  have honAxis : onAxis.length ≤ c.coords.size := by
    refine (List.length_filter_le _ _).trans ?_
    rw [List.length_map, Std.TreeMap.length_toList]
  have hsmall : k + c.coords.size + 1 ≤ 2 ^ 53 := by
    have hmax : (1048575 : Nat) = maxQubitId := rfl
    omega
  obtain ⟨more, hmore⟩ : ∃ more, count + c.coords.size = k + c.coords.size + 1 + more :=
    ⟨count - k - 1, by omega⟩
  have hsplit : (k + c.coords.size + 1) =
      ((List.range (k + c.coords.size + 1)).filter fun x => onAxis.contains (axisPlace x)).length +
        ((List.range (k + c.coords.size + 1)).filter fun x =>
          !onAxis.contains (axisPlace x)).length := by
    have h := List.length_eq_length_filter_add (l := List.range (k + c.coords.size + 1))
      fun x => onAxis.contains (axisPlace x)
    rwa [List.length_range] at h
  have htaken := c.length_taken_le hsmall honAxis
  have hlt : k < ((List.range (k + c.coords.size + 1)).filter fun x =>
      !onAxis.contains (axisPlace x)).length := by omega
  refine ⟨((List.range (k + c.coords.size + 1)).filter fun x =>
    !onAxis.contains (axisPlace x))[k], ?_, ?_⟩
  rotate_left
  · rw [freePlaces, hmore, List.range_add, List.filter_append,
      List.getElem?_append_left hlt, List.getElem?_eq_getElem hlt]
  · have hmem := List.mem_of_mem_filter (List.getElem_mem hlt)
    have hlt := List.mem_range.1 hmem
    omega

/-- The coordinates of a completed circuit. -/
def completedCoords (c : Circuit) : Std.TreeMap QubitId Point :=
  let missing := c.undeclared c.extent
  (missing.zip (c.freePlaces missing.length)).foldl
    (fun coords entry => coords.insert entry.1 (axisPlace entry.2)) c.coords

theorem packed_complete (c : Circuit) :
    c.complete.packed = (c.completedCoords.toList.map (·.2)).toArray := by
  have hmodify : ∀ (entries : List (QubitId × Point)) (d : Circuit),
      (entries.foldl (fun d entry => d.modifyQubit entry.1 (·.moveTo entry.2)) d).packed =
        d.packed := by
    intro entries
    induction entries with
    | nil => exact fun d => rfl
    | cons entry entries ih => exact fun d => ih _
  rw [complete]
  exact hmodify _ _

theorem getElem?_foldl_insert_of_notMem {entries : List (QubitId × Nat)} {q : QubitId}
    (h : q ∉ entries.map (·.1)) (coords : Std.TreeMap QubitId Point) :
    (entries.foldl (fun coords entry => coords.insert entry.1 (axisPlace entry.2)) coords)[q]? =
      coords[q]? := by
  induction entries generalizing coords with
  | nil => rfl
  | cons entry entries ih =>
      rw [List.map_cons, List.mem_cons, not_or] at h
      rw [List.foldl_cons, ih h.2, getElem?_insert_of_nat, if_neg (Ne.symm h.1)]

theorem getElem?_foldl_insert_of_mem {entries : List (QubitId × Nat)}
    (hnodup : (entries.map (·.1)).Nodup) {q : QubitId} {x : Nat} (h : (q, x) ∈ entries)
    (coords : Std.TreeMap QubitId Point) :
    (entries.foldl (fun coords entry => coords.insert entry.1 (axisPlace entry.2)) coords)[q]? =
      some (axisPlace x) := by
  induction entries generalizing coords with
  | nil => cases h
  | cons entry entries ih =>
      rw [List.map_cons, List.nodup_cons] at hnodup
      rw [List.foldl_cons]
      rcases List.mem_cons.1 h with rfl | h
      · rw [getElem?_foldl_insert_of_notMem hnodup.1, getElem?_insert_of_nat, if_pos rfl]
      · exact ih hnodup.2 h _

theorem size_coords_le (h : Situated c.coords) : c.coords.size ≤ maxQubitId + 1 := by
  have hnodup : c.coords.keys.Nodup := Std.TreeMap.nodup_keys
  have hsubset : c.coords.keys ⊆ List.range (maxQubitId + 1) := by
    intro q hq
    rw [Std.TreeMap.mem_keys, Std.TreeMap.mem_iff_isSome_getElem?] at hq
    obtain ⟨p, hp⟩ := Option.isSome_iff_exists.1 hq
    exact List.mem_range.2 (Nat.lt_succ_of_le (h.named q p hp))
  have hlength := (hnodup.subperm hsubset).length_le
  rwa [Std.TreeMap.length_keys, List.length_range] at hlength

/-- A qubit that text can name either keeps its declared coordinates or gets a free place. -/
theorem completedCoords_cases (h : Situated c.coords) {q : QubitId} (hq : q ≤ maxQubitId)
    (hlt : q < c.extent) :
    (∃ p : Point, c.coords[q]? = some p ∧ c.completedCoords[q]? = some p) ∨
      ∃ k x : Nat, c.coords[q]? = none ∧ (c.undeclared c.extent)[k]? = some q ∧ x < 2 ^ 53 ∧
        (c.freePlaces (c.undeclared c.extent).length)[k]? = some x ∧
          c.completedCoords[q]? = some (axisPlace x) := by
  have hfst := map_fst_zip_sublist (c.undeclared c.extent)
    (c.freePlaces (c.undeclared c.extent).length)
  cases hcoords : c.coords[q]? with
  | some p =>
      refine .inl ⟨p, rfl, ?_⟩
      rw [completedCoords, getElem?_foldl_insert_of_notMem, hcoords]
      intro hmem
      have hmissing := (List.mem_filter.1 (hfst.subset hmem)).2
      rw [Std.TreeMap.contains_eq_isSome_getElem?, hcoords] at hmissing
      cases hmissing
  | none =>
      obtain ⟨k, hk, hundeclared⟩ := exists_undeclared hlt hcoords
      obtain ⟨hk', -⟩ := List.getElem?_eq_some_iff.1 hundeclared
      obtain ⟨x, hx, hfree⟩ := exists_freePlace (size_coords_le h) hk' (hk.trans hq)
      refine .inr ⟨k, x, rfl, hundeclared, hx, hfree, ?_⟩
      refine getElem?_foldl_insert_of_mem (hfst.nodup (c.nodup_undeclared _)) ?_ _
      exact List.mem_of_getElem? (List.getElem?_zip_eq_some.2 ⟨hundeclared, hfree⟩)

/-- Completed coordinates keep qubits that text can name apart. -/
theorem eq_of_completedCoords (h : Situated c.coords) {q r : QubitId} (hq : q ≤ maxQubitId)
    (hqlt : q < c.extent) (hr : r ≤ maxQubitId) (hrlt : r < c.extent) {p p' : Point}
    (hp : c.completedCoords[q]? = some p) (hp' : c.completedCoords[r]? = some p')
    (hplace : p.place = p'.place) : q = r := by
  have htaken : ∀ {s : QubitId} {d : Point} {k x : Nat}, c.coords[s]? = some d →
      (c.freePlaces (c.undeclared c.extent).length)[k]? = some x → d.place ≠ axisPlace x := by
    intro s d k x hs hx heq
    have hfree := (List.mem_filter.1 (List.mem_of_getElem? hx)).2
    have hzero : (axisPlace x).y.isZero = true := rfl
    have hmem : axisPlace x ∈
        (c.coords.toList.map fun entry => entry.2.place).filter fun p => p.y.isZero := by
      refine List.mem_filter.2 ⟨List.mem_map.2 ⟨(s, d), ?_, heq⟩, hzero⟩
      exact Std.TreeMap.mem_toList_iff_getElem?_eq_some.2 hs
    simp [hmem] at hfree
  rcases completedCoords_cases h hq hqlt with ⟨d, hd, hdc⟩ | ⟨k, x, -, hk, hx, hkx, hxc⟩
  · cases hp.symm.trans hdc
    rcases completedCoords_cases h hr hrlt with ⟨d', hd', hdc'⟩ | ⟨k', x', -, -, hx', hkx', hxc'⟩
    · cases hp'.symm.trans hdc'
      exact h.apart q r p p' hd hd' hplace
    · cases hp'.symm.trans hxc'
      rw [place_axisPlace hx'] at hplace
      exact absurd hplace (htaken hd hkx')
  · cases hp.symm.trans hxc
    rw [place_axisPlace hx] at hplace
    rcases completedCoords_cases h hr hrlt with ⟨d', hd', hdc'⟩ | ⟨k', x', -, hk', hx', hkx', hxc'⟩
    · cases hp'.symm.trans hdc'
      exact absurd hplace.symm (htaken hd' hkx)
    · cases hp'.symm.trans hxc'
      rw [place_axisPlace hx'] at hplace
      have hsame := axisPlace_injective hx hx' hplace
      rw [← hsame] at hkx'
      have hindex := (List.getElem?_inj (List.getElem?_eq_some_iff.1 hkx).1
        (c.nodup_freePlaces _)).1 (hkx.trans hkx'.symm)
      rw [← hindex, hk] at hk'
      exact Option.some.inj hk'

theorem getElem?_packed_complete (h : Situated c.coords) {q : QubitId} (hq : q ≤ maxQubitId)
    (hlt : q < c.extent) : c.complete.packed[q]? = c.completedCoords[q]? := by
  have hsome : ∀ r : Nat, r ≤ q → r ∈ c.completedCoords.keys := by
    intro r hr
    rw [Std.TreeMap.mem_keys, Std.TreeMap.mem_iff_isSome_getElem?]
    rcases completedCoords_cases h (Nat.le_trans hr hq) (Nat.lt_of_le_of_lt hr hlt) with
      ⟨d, -, hdc⟩ | ⟨k, x, -, -, -, -, hxc⟩
    · rw [hdc]
      rfl
    · rw [hxc]
      rfl
  have hkeys : c.completedCoords.keys[q]? = some q := by
    have hascending : c.completedCoords.keys.Pairwise (· < ·) := by
      refine Std.TreeMap.ordered_keys.imp fun hlt => ?_
      exact Nat.compare_eq_lt.1 hlt
    have hfound := getElem?_of_ascending hascending (q := q) (fun x _ => Nat.zero_le x)
      fun r _ hr => hsome r (by rwa [Nat.zero_add] at hr)
    rwa [Nat.zero_add] at hfound
  rw [← Std.TreeMap.map_fst_toList_eq_keys, List.getElem?_map] at hkeys
  obtain ⟨entry, hentry, hfst⟩ := Option.map_eq_some_iff.1 hkeys
  have hvalue := Std.TreeMap.mem_toList_iff_getElem?_eq_some.1
    (show (entry.1, entry.2) ∈ c.completedCoords.toList from List.mem_of_getElem? hentry)
  rw [packed_complete, List.getElem?_toArray, List.getElem?_map, hentry, ← hfst, hvalue]
  rfl

/-- A running maximum is no less than its start, and greater than all that it runs over. -/
theorem foldl_max (l : List Nat) (n : Nat) : n ≤ l.foldl (fun n q => max n (q + 1)) n ∧
    ∀ q ∈ l, q < l.foldl (fun n q => max n (q + 1)) n := by
  induction l generalizing n with
  | nil => exact ⟨Nat.le_refl n, fun q hq => absurd hq List.not_mem_nil⟩
  | cons a l ih =>
      obtain ⟨hle, hmem⟩ := ih (max n (a + 1))
      refine ⟨(Nat.le_max_left _ _).trans hle, fun q hq => ?_⟩
      rcases List.mem_cons.1 hq with rfl | hq
      · exact Nat.lt_of_lt_of_le (Nat.lt_succ_self q) ((Nat.le_max_right _ _).trans hle)
      · exact hmem q hq

theorem foldl_max_le {l : List Nat} {n m : Nat} (hn : n ≤ m) (hl : ∀ q ∈ l, q < m) :
    l.foldl (fun n q => max n (q + 1)) n ≤ m := by
  induction l generalizing n with
  | nil => exact hn
  | cons a l ih =>
      obtain ⟨ha, hl⟩ := List.forall_mem_cons.1 hl
      exact ih (Nat.max_le.2 ⟨hn, ha⟩) hl

theorem lt_extent {q : QubitId} (h : q ∈ c.activeQubits ++ c.overlayQubits ++ c.coords.keys) :
    q < c.extent := (foldl_max _ _).2 q h

end Circuit

namespace Build

theorem mem_activeQubits {c : Circuit} {q : QubitId} :
    q ∈ c.activeQubits ↔ ∃ l ∈ c.layers, ∃ op ∈ l.operationsAndMarkers, q ∈ op.targets := by
  rw [Circuit.activeQubits, Std.TreeSet.mem_toList, Std.TreeSet.mem_ofList, List.contains_iff_mem,
    Circuit.operationsAndMarkers]
  simp only [List.mem_flatMap]
  constructor
  · rintro ⟨op, ⟨l, hl, hop⟩, hq⟩
    exact ⟨l, hl, op, hop, hq⟩
  · rintro ⟨l, hl, op, hop, hq⟩
    exact ⟨op, ⟨l, hl, hop⟩, hq⟩

end Build

end StimOverlay
