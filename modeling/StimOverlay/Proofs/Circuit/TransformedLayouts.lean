import StimOverlay.Circuit.Rectification
import StimOverlay.Proofs.Circuit.PackedCoordinates
import StimOverlay.Proofs.Record.GroupedLists

/-! Transformed circuits. However the layout of a parsed circuit is moved about and added to, the declared,
the listed and the stored coordinates stay copies of one another, and layers and sheets stay as they were.
Points that are included get qubits behind those that are there, one for each place that nothing is at. -/

namespace StimOverlay

open Build Numeric

namespace Circuit

theorem getElem?_values {coords : Std.TreeMap QubitId Point} {n : Nat}
    (h : coords.keys = List.range n) (i : QubitId) : (coords.toList.map (·.2))[i]? = coords[i]? := by
  rw [← Std.TreeMap.map_fst_toList_eq_keys] at h
  have hat := congrArg (·[i]?) h
  simp only [List.getElem?_map] at hat ⊢
  cases hentry : coords.toList[i]? with
  | some entry =>
      rw [hentry] at hat
      obtain ⟨hlt, hi⟩ := List.getElem?_eq_some_iff.1 hat.symm
      rw [List.getElem_range] at hi
      rw [hi, Std.TreeMap.mem_toList_iff_getElem?_eq_some.1
        (List.mem_of_getElem? hentry)]
      rfl
  | none =>
      rw [hentry] at hat
      have hnone : coords[i]? = none := by
        refine Option.eq_none_iff_forall_ne_some.2 fun p hp => ?_
        have hmem : i ∈ List.range n := h ▸ List.mem_map.2
          ⟨(i, p), Std.TreeMap.mem_toList_iff_getElem?_eq_some.2 hp, rfl⟩
        rw [List.getElem?_range (List.mem_range.1 hmem)] at hat
        cases hat
      rw [hnone]
      rfl

variable {c : Circuit} {n : Nat}

/-- The copies agree if they do so qubit by qubit. -/
theorem mirrored_iff : c.Mirrored n ↔ c.packed.size = n ∧ c.qubits.size = n ∧
    (∀ i : QubitId, c.coords[i]? = c.packed[i]?) ∧
      ∀ (i : Nat) (q : Qubit), c.qubits[i]? = some q → q.id = i ∧ c.packed[i]? = some q.stim := by
  constructor
  · intro h
    have hlisted : ∀ i : QubitId, c.coords[i]? = c.packed[i]? := fun i => by
      rw [← getElem?_values h.keys i, ← h.packed, Array.getElem?_toList]
    refine ⟨?_, h.size, hlisted, fun i q hq => ?_⟩
    · rw [← Array.length_toList, h.packed, ← List.length_range (n := n), ← h.keys,
        ← Std.TreeMap.map_fst_toList_eq_keys, List.length_map, List.length_map]
    · obtain ⟨hid, hcoords⟩ := h.qubit i q hq
      exact ⟨hid, hlisted i ▸ hcoords⟩
  · rintro ⟨hpacked, hsize, hlisted, hqubit⟩
    have hkeys : c.coords.keys = List.range n := by
      refine keys_eq_range fun q => ?_
      rw [hlisted, ← hpacked, ← Option.isSome_iff_exists]
      simp
    refine ⟨hkeys, List.ext_getElem? fun i => ?_, hsize, fun i q hq => ?_⟩
    · rw [getElem?_values hkeys, hlisted, Array.getElem?_toList]
    · rw [hlisted]
      exact hqubit i q hq

/-- What is done to a layout: it is moved about, or points are added to it. -/
inductive Transform where
  | move (f : Point → Point)
  | shift (dx dy : Binary64)
  | rotate45
  | copy
  | rectify
  | add (points : List Point)

def transform (c : Circuit) : Transform → Circuit
  | .move f => c.mapPoints f
  | .shift dx dy => c.shift dx dy
  | .rotate45 => c.rotate45
  | .copy => c.copy
  | .rectify => c.rectified
  | .add points => c.includePoints points

def afterTransforms (c : Circuit) (transforms : List Transform) : Circuit :=
  transforms.foldl transform c

theorem Mirrored.mapPoints (h : c.Mirrored n) (f : Point → Point) : (c.mapPoints f).Mirrored n := by
  obtain ⟨hpacked, hsize, hlisted, hqubit⟩ := mirrored_iff.1 h
  refine mirrored_iff.2 ⟨?_, ?_, fun i => ?_, fun i q hq => ?_⟩
  · rw [Circuit.mapPoints, Array.size_map, hpacked]
  · rw [Circuit.mapPoints, Array.size_map, hsize]
  · rw [Circuit.mapPoints, Std.TreeMap.getElem?_map, Array.getElem?_map, hlisted]
  · rw [Circuit.mapPoints, Array.getElem?_map] at hq
    obtain ⟨x, hx, rfl⟩ := Option.map_eq_some_iff.1 hq
    obtain ⟨hid, hstim⟩ := hqubit i x hx
    refine ⟨hid, ?_⟩
    rw [Circuit.mapPoints, Array.getElem?_map, hstim]
    rfl

/-- A qubit that is appended is stored behind the others. -/
theorem qubits_append (h : c.qubits.size = c.packed.size) (p : Point) :
    (c.append p).qubits = c.qubits.push (Qubit.moveTo { id := c.packed.size } p) := by
  refine Array.ext_getElem? fun i => ?_
  rw [append, getElem?_modifyQubit, getElem?_grow, h, Array.getElem?_push, h]
  by_cases hlast : c.packed.size = i
  · rw [if_pos hlast, if_pos hlast.symm, if_neg (by omega), if_pos (Nat.le_of_eq hlast.symm), hlast]
    rfl
  · rw [if_neg hlast, if_neg (Ne.symm hlast)]
    split_ifs
    · rfl
    · omega
    · rw [Array.getElem?_eq_none (by omega)]

/-- It has the next number in all copies. -/
theorem Mirrored.append (h : c.Mirrored n) (p : Point) : (c.append p).Mirrored (n + 1) := by
  obtain ⟨rfl, hsize, hlisted, hqubit⟩ := mirrored_iff.1 h
  refine mirrored_iff.2 ⟨Array.size_push p, ?_, fun i => ?_, fun i q hq => ?_⟩
  · rw [qubits_append hsize, Array.size_push, hsize]
  · change (c.coords.insert c.packed.size p)[i]? = (c.packed.push p)[i]?
    rw [getElem?_insert_of_nat, Array.getElem?_push, hlisted]
    exact if_congr eq_comm rfl rfl
  · change q.id = i ∧ (c.packed.push p)[i]? = some q.stim
    rw [qubits_append hsize, Array.getElem?_push, hsize] at hq
    rw [Array.getElem?_push]
    split_ifs at hq with hlast
    · cases hq
      exact ⟨hlast.symm, if_pos hlast⟩
    · rw [if_neg hlast]
      exact hqubit i q hq

/-- Points are included one by one. -/
theorem includePoints_cons (c : Circuit) (p : Point) (points : List Point) :
    c.includePoints (p :: points) =
      if c.isListed p then c.includePoints points else (c.append p).includePoints points := by
  rw [includePoints, List.foldl_cons]
  split_ifs <;> rfl

theorem Mirrored.includePoints (h : c.Mirrored n) (points : List Point) :
    ∃ m, (c.includePoints points).Mirrored m := by
  induction points generalizing c n with
  | nil => exact ⟨n, h⟩
  | cons p rest ih =>
      rw [includePoints_cons]
      split_ifs
      · exact ih h
      · exact ih (h.append p)

theorem Mirrored.transform (h : c.Mirrored n) (t : Transform) : ∃ m, (c.transform t).Mirrored m := by
  cases t with
  | move f => exact ⟨n, h.mapPoints f⟩
  | shift dx dy => exact ⟨n, h.mapPoints _⟩
  | rotate45 => exact ⟨n, h.mapPoints _⟩
  | copy => exact ⟨n, h.mapPoints _⟩
  | rectify => exact ⟨n, h.mapPoints _⟩
  | add points => exact h.includePoints points

theorem Mirrored.afterTransforms (h : c.Mirrored n) (transforms : List Transform) :
    ∃ m, (c.afterTransforms transforms).Mirrored m := by
  induction transforms generalizing c n with
  | nil => exact ⟨n, h⟩
  | cons t rest ih =>
      obtain ⟨m, hm⟩ := h.transform t
      exact ih hm

/-- Only the coordinates differ, and what is stored of the qubits. -/
structure SameContents (c d : Circuit) : Prop where
  schedule : d.schedule = c.schedule
  sheets : d.sheets = c.sheets

theorem sameContents_includePoints (c : Circuit) (points : List Point) :
    SameContents c (c.includePoints points) := by
  induction points generalizing c with
  | nil => exact ⟨rfl, rfl⟩
  | cons p rest ih =>
      rw [includePoints_cons]
      split_ifs
      · exact ih c
      · exact ⟨(ih (c.append p)).schedule, (ih (c.append p)).sheets⟩

theorem sameContents_transform (c : Circuit) (t : Transform) : SameContents c (c.transform t) := by
  cases t with
  | add points => exact sameContents_includePoints c points
  | _ => exact ⟨rfl, rfl⟩

theorem sameContents_afterTransforms (c : Circuit) (transforms : List Transform) :
    SameContents c (c.afterTransforms transforms) := by
  induction transforms generalizing c with
  | nil => exact ⟨rfl, rfl⟩
  | cons t rest ih =>
      have hstep := sameContents_transform c t
      have hrest := ih (c.transform t)
      exact ⟨hrest.schedule.trans hstep.schedule, hrest.sheets.trans hstep.sheets⟩

/-- A listed qubit is at the place of the point. -/
def Occupied (c : Circuit) (p : Point) : Prop := ∃ q, (q, p.place) ∈ c.places

theorem mem_places {p : Point} : p ∈ c.places.map (·.2) ↔ ∃ p' ∈ c.packed, p'.place = p := by
  have hlisted : ((c.packed.toList.zipIdx.map fun entry => (entry.2, entry.1.place)).reverse).map
      (·.2) = (c.packed.toList.map Point.place).reverse := by
    conv_rhs => rw [← List.zipIdx_map_fst 0 c.packed.toList, List.map_map]
    rw [List.map_reverse, List.map_map]
    rfl
  rw [places, List.map_reverse, map_eraseDupsBy, List.mem_reverse, List.mem_eraseDups, hlisted,
    List.mem_reverse, List.mem_map]
  simp

theorem isListed_iff {p : Point} : c.isListed p ↔ c.Occupied p := by
  have hmem : c.Occupied p ↔ p.place ∈ c.places.map (·.2) := by
    simp [Occupied]
  rw [hmem, mem_places, isListed]
  simp [Array.mem_iff_getElem]

theorem isListed_append (p p' : Point) :
    (c.append p).isListed p' = (c.isListed p' || p.place == p'.place) := by
  change (c.packed.push p).any (·.place == p'.place) = _
  rw [Array.any_push]
  rfl

/-- The points that nothing is at, the first ones for their places. -/
def newPoints (c : Circuit) (points : List Point) : List Point :=
  (points.filter (!c.isListed ·)).eraseDupsBy fun a b => a.place == b.place

theorem packed_includePoints (c : Circuit) (points : List Point) :
    (c.includePoints points).packed.toList = c.packed.toList ++ c.newPoints points := by
  induction points generalizing c with
  | nil => exact (List.append_nil _).symm
  | cons p rest ih =>
      rw [includePoints_cons]
      cases hp : c.isListed p with
      | true =>
          rw [if_pos rfl, ih, newPoints, newPoints, List.filter_cons_of_neg (by simp [hp])]
      | false =>
          have hpacked : (c.append p).packed.toList = c.packed.toList ++ [p] := Array.toList_push
          have hrest : rest.filter (!(c.append p).isListed ·) =
              (rest.filter (!c.isListed ·)).filter fun p' =>
                decide ((p'.place == p.place) = false) := by
            rw [List.filter_filter]
            refine List.filter_congr fun p' _ => ?_
            rw [isListed_append, BEq.comm (a := p.place)]
            cases c.isListed p' <;> cases p'.place == p.place <;> rfl
          rw [if_neg (by simp), ih, hpacked, newPoints, newPoints,
            List.filter_cons_of_pos (by simp [hp]), List.eraseDupsBy_cons, hrest]
          simp

theorem isListed_includePoints {p : Point} (hp : c.isListed p) (points : List Point) :
    (c.includePoints points).isListed p := by
  rw [isListed, ← Array.any_toList] at hp ⊢
  rw [packed_includePoints, List.any_append, hp, Bool.true_or]

theorem isListed_of_mem {points : List Point} {p : Point} (hp : p ∈ points) :
    (c.includePoints points).isListed p := by
  induction points generalizing c with
  | nil => cases hp
  | cons p' rest ih =>
      rw [includePoints_cons]
      rcases List.mem_cons.1 hp with rfl | hp
      · split_ifs with hlisted
        · exact isListed_includePoints hlisted rest
        · refine isListed_includePoints ?_ rest
          rw [isListed_append, beq_self_eq_true, Bool.or_true]
      · split_ifs
        · exact ih hp
        · exact ih hp

/-- Points that are listed are not added. -/
theorem includePoints_of_listed {points : List Point} (h : ∀ p ∈ points, c.isListed p) :
    c.includePoints points = c := by
  induction points with
  | nil => rfl
  | cons p rest ih =>
      obtain ⟨hp, hrest⟩ := List.forall_mem_cons.1 h
      rw [includePoints_cons, if_pos hp, ih hrest]

theorem qubits_prefix_includePoints (h : c.Mirrored n) (points : List Point) :
    c.qubits.toList <+: (c.includePoints points).qubits.toList := by
  induction points generalizing c n with
  | nil => exact List.prefix_rfl
  | cons p rest ih =>
      rw [includePoints_cons]
      split_ifs
      · exact ih h
      · obtain ⟨hpacked, hsize, -⟩ := mirrored_iff.1 h
        refine List.IsPrefix.trans ?_ (ih (h.append p))
        rw [qubits_append (hsize.trans hpacked.symm), Array.toList_push]
        exact List.prefix_append _ _

/-- The circuit `d` is `c` with the given points included. -/
structure Includes (points : List Point) (c d : Circuit) : Prop where
  /-- The old entries come first. The new ones are at places of their own that nothing was at. -/
  packed : ∃ added, d.packed.toList = c.packed.toList ++ added ∧ added.Sublist points ∧
    (added.map Point.place).Nodup ∧ ∀ p ∈ added, ¬c.Occupied p
  coords : ∀ i : QubitId, i < c.packed.size → d.coords[i]? = c.coords[i]?
  qubits : c.qubits.toList <+: d.qubits.toList
  occupied : ∀ p ∈ points, d.Occupied p
  again : d.includePoints points = d

theorem Mirrored.includes (h : c.Mirrored n) (points : List Point) :
    Includes points c (c.includePoints points) where
  packed := by
    refine ⟨c.newPoints points, packed_includePoints c points,
      (eraseDupsBy_sublist _ _).trans List.filter_sublist, ?_, fun p hp hoccupied => ?_⟩
    · rw [newPoints, map_eraseDupsBy]
      exact nodup_eraseDups _
    · have hfree := List.of_mem_filter ((eraseDupsBy_sublist _ _).subset hp)
      rw [isListed_iff.2 hoccupied] at hfree
      cases hfree
  coords i hi := by
    obtain ⟨m, hm⟩ := h.includePoints points
    rw [(mirrored_iff.1 hm).2.2.1, (mirrored_iff.1 h).2.2.1, ← Array.getElem?_toList,
      ← Array.getElem?_toList, packed_includePoints, List.getElem?_append_left (by simpa using hi)]
  qubits := qubits_prefix_includePoints h points
  occupied _ hp := isListed_iff.1 (isListed_of_mem hp)
  again := includePoints_of_listed fun _ hp => isListed_of_mem hp

/-- **Transformed layouts.** Whatever has been done to the layout of a parsed circuit, the copies of the
coordinates agree, and layers and sheets are as they were parsed. Including points from there on adds
each place that is missing, once. -/
theorem mirrored_afterTransforms (ctx : Context) (text : String) (transforms : List Transform) :
    let parsed := (parseWith ctx text).circuit
    let c := parsed.afterTransforms transforms
    (∃ n, c.Mirrored n) ∧ c.layers = parsed.layers ∧ c.sheets = parsed.sheets ∧
      ∀ points, Includes points c (c.includePoints points) := by
  intro parsed c
  obtain ⟨n, hn⟩ := (mirrored_parseWith ctx text).afterTransforms transforms
  have hsame := sameContents_afterTransforms parsed transforms
  refine ⟨⟨n, hn⟩, ?_, hsame.sheets, hn.includes⟩
  rw [layers, hsame.schedule]
  rfl

end Circuit

end StimOverlay
