import StimOverlay.Proofs.Circuit.CompletedCoordinates
import StimOverlay.Proofs.Run.TidyStates

/-! Complete coordinates. Whatever was read, and whether the run was halted or not, a parsed circuit has
coordinates for the qubits below some number and for no others; its copies of them agree, no two qubits
share a place, and no other qubit is mentioned anywhere. -/

namespace StimOverlay

open Build Numeric

namespace Circuit

/-- A circuit that a run can leave behind. -/
structure Drafted (c : Circuit) : Prop where
  schedule : c.schedule.Named
  arena : Arena c.qubits
  situated : Situated c.coords

/-- Coordinates of the qubits below `n`, the same in all of their copies. -/
structure Mirrored (c : Circuit) (n : Nat) : Prop where
  keys : c.coords.keys = List.range n
  packed : c.packed.toList = c.coords.toList.map (·.2)
  size : c.qubits.size = n
  qubit : ∀ (i : Nat) (q : Qubit), c.qubits[i]? = some q → q.id = i ∧ c.coords[i]? = some q.stim

/-- Coordinates of the qubits below `n`, in all of their copies. -/
structure Complete (c : Circuit) (n : Nat) : Prop where
  keys : c.coords.keys = List.range n
  packed : c.packed.toList = c.coords.toList.map (·.2)
  size : c.qubits.size = n
  qubit : ∀ (i : Nat) (q : Qubit), c.qubits[i]? = some q →
    q.id = i ∧ c.coords[i]? = some q.stim ∧ q.Follows
  apart : ∀ (i j : Nat) (p p' : Point), c.coords[i]? = some p → c.coords[j]? = some p' →
    p.place = p'.place → i = j
  operations : ∀ l ∈ c.layers, ∀ op ∈ l.operationsAndMarkers, ∀ q ∈ op.targets, q < n
  overlays : ∀ l ∈ c.layers, ∀ o ∈ l.overlays.toList, ∀ q ∈ o.qubits, q < n

variable {c : Circuit}

theorem mem_overlayQubits {q : QubitId} :
    q ∈ c.overlayQubits ↔ ∃ l ∈ c.layers, ∃ o ∈ l.overlays.toList, q ∈ o.qubits := by
  simp only [overlayQubits, List.mem_flatMap]

theorem mem_keys {coords : Std.TreeMap QubitId Point} {q : QubitId} :
    q ∈ coords.keys ↔ ∃ p, coords[q]? = some p := by
  rw [Std.TreeMap.mem_keys, Std.TreeMap.mem_iff_isSome_getElem?, Option.isSome_iff_exists]

theorem size_le_extent (c : Circuit) : c.qubits.size ≤ c.extent := (foldl_max _ _).1

theorem extent_le (h : c.Drafted) : c.extent ≤ maxQubitId + 1 := by
  refine foldl_max_le h.arena.size fun q hq => Nat.lt_succ_of_le ?_
  rcases List.mem_append.1 hq with hq | hq
  · rcases List.mem_append.1 hq with hq | hq
    · obtain ⟨l, hl, op, hop, hq⟩ := mem_activeQubits.1 hq
      exact (h.schedule l hl).operations op hop q hq
    · obtain ⟨l, hl, o, ho, hq⟩ := mem_overlayQubits.1 hq
      exact (h.schedule l hl).overlays o ho q hq
  · obtain ⟨p, hp⟩ := mem_keys.1 hq
    exact h.situated.named q p hp

theorem lt_extent_of_completedCoords {q : QubitId} {p : Point}
    (h : c.completedCoords[q]? = some p) : q < c.extent := by
  by_contra hle
  have hmissing : q ∉ ((c.undeclared c.extent).zip
      (c.freePlaces (c.undeclared c.extent).length)).map (·.1) := by
    intro hmem
    have hrange := List.mem_of_mem_filter ((map_fst_zip_sublist _ _).subset hmem)
    exact hle (List.mem_range.1 hrange)
  rw [completedCoords, getElem?_foldl_insert_of_notMem hmissing] at h
  exact hle (lt_extent (List.mem_append_right _ (mem_keys.2 ⟨p, h⟩)))

theorem exists_completedCoords (h : c.Drafted) {q : QubitId} (hq : q < c.extent) :
    ∃ p, c.completedCoords[q]? = some p := by
  have hmax : q ≤ maxQubitId := Nat.le_of_lt_succ (Nat.lt_of_lt_of_le hq (extent_le h))
  rcases completedCoords_cases h.situated hmax hq with ⟨p, -, hp⟩ | ⟨k, x, -, -, -, -, hx⟩
  · exact ⟨p, hp⟩
  · exact ⟨_, hx⟩

/-- A table of the qubits below a number lists them in order. -/
theorem keys_eq_range {coords : Std.TreeMap QubitId Point} {n : Nat}
    (h : ∀ q : QubitId, (∃ p, coords[q]? = some p) ↔ q < n) : coords.keys = List.range n := by
  have hascending : coords.keys.Pairwise (· < ·) :=
    Std.TreeMap.ordered_keys.imp fun hlt => Nat.compare_eq_lt.1 hlt
  have hmem : ∀ q, q ∈ coords.keys ↔ q ∈ List.range n := by
    intro q
    rw [mem_keys, List.mem_range, h]
  refine List.Perm.eq_of_pairwise (fun a b _ _ hab hba => absurd hba (Nat.lt_asymm hab))
    hascending List.pairwise_lt_range ?_
  exact (List.perm_ext_iff_of_nodup Std.TreeMap.nodup_keys List.nodup_range).2 hmem

theorem keys_completedCoords (h : c.Drafted) : c.completedCoords.keys = List.range c.extent :=
  keys_eq_range fun _ => ⟨fun ⟨_, hp⟩ => lt_extent_of_completedCoords hp, exists_completedCoords h⟩

/-- The qubits moved to places, one after another. -/
def moved (c : Circuit) (entries : List (QubitId × Point)) : Circuit :=
  entries.foldl (fun c entry => c.modifyQubit entry.1 (·.moveTo entry.2)) c

theorem moved_keeps (c : Circuit) (entries : List (QubitId × Point)) :
    (c.moved entries).coords = c.coords ∧ (c.moved entries).packed = c.packed := by
  induction entries generalizing c with
  | nil => exact ⟨rfl, rfl⟩
  | cons entry rest ih => exact ih _

theorem arena_moved {c : Circuit} (h : Arena c.qubits) {entries : List (QubitId × Point)}
    (hentries : ∀ e ∈ entries, e.1 ≤ maxQubitId) : Arena (c.moved entries).qubits := by
  induction entries generalizing c with
  | nil => exact h
  | cons entry rest ih =>
      obtain ⟨hentry, hrest⟩ := List.forall_mem_cons.1 hentries
      exact ih (h.modifyQubit hentry (fun _ => rfl) fun x _ => x.follows_moveTo entry.2) hrest

theorem size_moved_le {c : Circuit} {n : Nat} (h : c.qubits.size ≤ n)
    {entries : List (QubitId × Point)} (hentries : ∀ e ∈ entries, e.1 < n) :
    (c.moved entries).qubits.size ≤ n := by
  induction entries generalizing c with
  | nil => exact h
  | cons entry rest ih =>
      obtain ⟨hentry, hrest⟩ := List.forall_mem_cons.1 hentries
      refine ih ?_ hrest
      rw [size_modifyQubit]
      exact Nat.max_le.2 ⟨h, hentry⟩

theorem getElem?_moved_of_notMem {c : Circuit} {entries : List (QubitId × Point)} {q : QubitId}
    (hq : q ∉ entries.map (·.1)) {x : Qubit} (h : c.qubits[q]? = some x) :
    (c.moved entries).qubits[q]? = some x := by
  induction entries generalizing c with
  | nil => exact h
  | cons entry rest ih =>
      rw [List.map_cons, List.mem_cons, not_or] at hq
      refine ih hq.2 ?_
      rw [getElem?_modifyQubit, if_neg (Ne.symm hq.1), getElem?_grow,
        if_pos (Array.getElem?_eq_some_iff.1 h).1, h]

/-- Every qubit that is moved is at its place in the end. -/
theorem getElem?_moved_of_mem {c : Circuit} {entries : List (QubitId × Point)}
    (hnodup : (entries.map (·.1)).Nodup) {q : QubitId} {p : Point} (h : (q, p) ∈ entries) :
    ∃ x, (c.moved entries).qubits[q]? = some x ∧ x.stim = p := by
  induction entries generalizing c with
  | nil => cases h
  | cons entry rest ih =>
      rw [List.map_cons, List.nodup_cons] at hnodup
      rcases List.mem_cons.1 h with rfl | h
      · have hgrown : q < (grow c.qubits q).size := by
          rw [size_grow]
          exact Nat.lt_of_lt_of_le (Nat.lt_succ_self q) (Nat.le_max_right _ _)
        refine ⟨((grow c.qubits q)[q]).moveTo p, getElem?_moved_of_notMem hnodup.1 ?_, rfl⟩
        rw [getElem?_modifyQubit, if_pos rfl, Array.getElem?_eq_getElem hgrown]
        rfl
      · exact ih hnodup.2 h

theorem toList_completedCoords {e : QubitId × Point} (he : e ∈ c.completedCoords.toList) :
    c.completedCoords[e.1]? = some e.2 :=
  Std.TreeMap.mem_toList_iff_getElem?_eq_some.1 he

theorem nodup_completedCoords (c : Circuit) : (c.completedCoords.toList.map (·.1)).Nodup := by
  rw [Std.TreeMap.map_fst_toList_eq_keys]
  exact Std.TreeMap.nodup_keys

/-- The completed circuit is packed and has its qubits moved to the completed coordinates. -/
theorem complete_eq (c : Circuit) :
    c.complete = ({ c with coords := c.completedCoords } : Circuit).pack.moved
      c.completedCoords.toList := by
  rw [complete, moved]
  rfl

theorem qubits_pack (c : Circuit) : c.pack.qubits = c.qubits := rfl

theorem coords_pack (c : Circuit) : c.pack.coords = c.coords := rfl

theorem coords_complete (c : Circuit) : c.complete.coords = c.completedCoords := by
  rw [complete_eq, (moved_keeps _ _).1, coords_pack]

theorem size_qubits_complete (h : c.Drafted) : c.complete.qubits.size = c.extent := by
  rw [complete_eq]
  refine Nat.le_antisymm ?_ ?_
  · refine size_moved_le (n := c.extent) ?_
      fun e he => lt_extent_of_completedCoords (toList_completedCoords he)
    rw [qubits_pack]
    exact c.size_le_extent
  · by_contra hlt
    -- The last qubit below the extent has been moved to its place.
    obtain ⟨p, hp⟩ := exists_completedCoords h (Nat.not_le.1 hlt)
    obtain ⟨x, hx, -⟩ := getElem?_moved_of_mem (c := ({ c with coords := c.completedCoords } :
      Circuit).pack) c.nodup_completedCoords (Std.TreeMap.mem_toList_iff_getElem?_eq_some.2 hp)
    exact absurd (Array.getElem?_eq_some_iff.1 hx).1 (Nat.lt_irrefl _)

theorem qubit_complete (h : c.Drafted) {i : Nat} {q : Qubit} (hq : c.complete.qubits[i]? = some q) :
    q.id = i ∧ c.complete.coords[i]? = some q.stim ∧ q.Follows := by
  have harena : Arena c.complete.qubits := by
    rw [complete_eq]
    refine arena_moved (by rw [qubits_pack]; exact h.arena) fun e he => ?_
    have hlt := lt_extent_of_completedCoords (toList_completedCoords he)
    exact Nat.le_of_lt_succ (Nat.lt_of_lt_of_le hlt (extent_le h))
  have hlt : i < c.extent := by
    rw [← size_qubits_complete h]
    exact (Array.getElem?_eq_some_iff.1 hq).1
  obtain ⟨p, hp⟩ := exists_completedCoords h hlt
  obtain ⟨x, hx, rfl⟩ := getElem?_moved_of_mem (c := ({ c with coords := c.completedCoords } :
    Circuit).pack) c.nodup_completedCoords (Std.TreeMap.mem_toList_iff_getElem?_eq_some.2 hp)
  have hid := harena.id i q hq
  have hfollows := harena.follows i q hq
  rw [complete_eq, hx, Option.some_inj] at hq
  refine ⟨hid, ?_, hfollows⟩
  rw [coords_complete, hp, ← hq]

theorem apart_complete (h : c.Drafted) {i j : Nat} {p p' : Point}
    (hi : c.complete.coords[i]? = some p) (hj : c.complete.coords[j]? = some p')
    (hplace : p.place = p'.place) : i = j := by
  rw [coords_complete] at hi hj
  have hnamed : ∀ {q : QubitId}, q < c.extent → q ≤ maxQubitId := fun hlt =>
    Nat.le_of_lt_succ (Nat.lt_of_lt_of_le hlt (extent_le h))
  have hilt := lt_extent_of_completedCoords hi
  have hjlt := lt_extent_of_completedCoords hj
  exact eq_of_completedCoords h.situated (hnamed hilt) hilt (hnamed hjlt) hjlt hi hj hplace

end Circuit

namespace Build

open Circuit

variable (ctx : Context) (text : String)

/-- The circuit that a run builds, before it is completed. -/
def draft : Circuit := (finalState ctx (Source.normalize text.toList)).circuit

theorem drafted_draft : (draft ctx text).Drafted := by
  rw [draft, finalState_eq_stateAfter]
  have htidy := tidy_stateAfter ctx (course ctx (Source.normalize text.toList))
  exact ⟨htidy.schedule, htidy.arena, situated_stateAfter _ _⟩

theorem tables_parseWith : (parseWith ctx text).circuit.coords = (draft ctx text).complete.coords ∧
    (parseWith ctx text).circuit.packed = (draft ctx text).complete.packed ∧
      (parseWith ctx text).circuit.qubits = (draft ctx text).complete.qubits := by
  simp only [parseWith, Parsed.ofState, Circuit.finish, Circuit.registerOverlays, draft, and_self]

theorem layers_parseWith : ∃ inserted, (parseWith ctx text).circuit.layers =
    (draft ctx text).schedule.trimEnd.toList.map fun l =>
      { l with overlays := l.overlays.map (Parsed.shiftOverlay inserted) } := by
  refine ⟨(finalState ctx (Source.normalize text.toList)).headers.toList.map (·.line), ?_⟩
  simp only [parseWith, Parsed.ofState, Circuit.layers, Schedule.toList_map, draft,
    Circuit.schedule_finish]

theorem qubits_shiftOverlay (inserted : List Nat) (o : Overlay) :
    (Parsed.shiftOverlay inserted o).qubits = o.qubits := by
  cases o <;> rfl

/-- The layers of a parsed circuit are layers of the draft, with the lines of overlays renumbered. -/
theorem exists_layer_draft {l : Layer} (hl : l ∈ (parseWith ctx text).circuit.layers) :
    ∃ l' ∈ (draft ctx text).layers, l'.operationsAndMarkers = l.operationsAndMarkers ∧
      ∀ o ∈ l.overlays.toList, ∃ o' ∈ l'.overlays.toList, o'.qubits = o.qubits := by
  obtain ⟨inserted, hlayers⟩ := layers_parseWith ctx text
  obtain ⟨rest, hrest, -⟩ := (draft ctx text).schedule.toList_eq_trimEnd_append
  rw [hlayers] at hl
  obtain ⟨l', hl', rfl⟩ := List.mem_map.1 hl
  refine ⟨l', ?_, rfl, fun o ho => ?_⟩
  · rw [Circuit.layers, hrest]
    exact List.mem_append_left _ hl'
  · rw [Array.toList_map] at ho
    obtain ⟨o', ho', rfl⟩ := List.mem_map.1 ho
    exact ⟨o', ho', (qubits_shiftOverlay inserted o').symm⟩

/-- What a parsed circuit acts on or draws over is below the extent of its draft. -/
theorem lt_extent_of_operation {l : Layer} (hl : l ∈ (parseWith ctx text).circuit.layers)
    {op : Operation} (hop : op ∈ l.operationsAndMarkers) {q : QubitId} (hq : q ∈ op.targets) :
    q < (draft ctx text).extent := by
  obtain ⟨l', hl', hops, -⟩ := exists_layer_draft ctx text hl
  exact lt_extent (List.mem_append_left _ (List.mem_append_left _
    (mem_activeQubits.2 ⟨l', hl', op, hops ▸ hop, hq⟩)))

theorem lt_extent_of_overlay {l : Layer} (hl : l ∈ (parseWith ctx text).circuit.layers)
    {o : Overlay} (ho : o ∈ l.overlays.toList) {q : QubitId} (hq : q ∈ o.qubits) :
    q < (draft ctx text).extent := by
  obtain ⟨l', hl', -, hoverlays⟩ := exists_layer_draft ctx text hl
  obtain ⟨o', ho', hqubits⟩ := hoverlays o ho
  exact lt_extent (List.mem_append_left _ (List.mem_append_right _
    (mem_overlayQubits.2 ⟨l', hl', o', ho', hqubits ▸ hq⟩)))

/-- The listed coordinates of a qubit are the ones it is completed with. -/
theorem completedCoords_parseWith {q : QubitId} (hlt : q < (draft ctx text).extent) :
    (draft ctx text).completedCoords[q]? = some ((parseWith ctx text).circuit.coordsOf q) := by
  have h := drafted_draft ctx text
  have hq : q ≤ maxQubitId := Nat.le_of_lt_succ (Nat.lt_of_lt_of_le hlt (extent_le h))
  rw [Circuit.coordsOf, (tables_parseWith ctx text).2.1, getElem?_packed_complete h.situated hq hlt]
  rcases completedCoords_cases h.situated hq hlt with ⟨d, -, hdc⟩ | ⟨k, x, -, -, -, -, hxc⟩
  · rw [hdc]
    rfl
  · rw [hxc]
    rfl

theorem coordsOf_parseWith_of_declared {q : QubitId} {p : Point}
    (hp : (draft ctx text).coords[q]? = some p) : (parseWith ctx text).circuit.coordsOf q = p := by
  have h := drafted_draft ctx text
  have hlt : q < (draft ctx text).extent := lt_extent (List.mem_append_right _ (mem_keys.2 ⟨p, hp⟩))
  have hcompleted := completedCoords_parseWith ctx text hlt
  rcases completedCoords_cases h.situated (h.situated.named q p hp) hlt with
    ⟨d, hd, hdc⟩ | ⟨k, x, hnone, -⟩
  · rw [hp] at hd
    cases hd
    exact Option.some.inj (hcompleted.symm.trans hdc)
  · rw [hp] at hnone
    cases hnone

theorem mirrored_parseWith :
    (parseWith ctx text).circuit.Mirrored (draft ctx text).extent := by
  have h := drafted_draft ctx text
  obtain ⟨hcoords, hpacked, hqubits⟩ := tables_parseWith ctx text
  refine ⟨?_, ?_, ?_, fun i q hq => ?_⟩
  · rw [hcoords, coords_complete, keys_completedCoords h]
  · rw [hcoords, hpacked, coords_complete, packed_complete]
  · rw [hqubits, size_qubits_complete h]
  · rw [hqubits] at hq
    rw [hcoords]
    obtain ⟨hid, hstim, -⟩ := qubit_complete h hq
    exact ⟨hid, hstim⟩

/-- Every parse ends with complete, dense and consistent coordinates. -/
theorem parseWith_complete : ∃ n ≤ 2 ^ 20, (parseWith ctx text).circuit.Complete n := by
  have h := drafted_draft ctx text
  refine ⟨(draft ctx text).extent, (extent_le h).trans (by decide), ?_⟩
  obtain ⟨hcoords, hpacked, hqubits⟩ := tables_parseWith ctx text
  refine ⟨?_, ?_, ?_, fun i q hq => ?_, fun i j p p' hi hj => ?_, fun l hl op hop q hq => ?_,
    fun l hl o ho q hq => ?_⟩
  · rw [hcoords, coords_complete, keys_completedCoords h]
  · rw [hcoords, hpacked, coords_complete, packed_complete]
  · rw [hqubits, size_qubits_complete h]
  · rw [hqubits] at hq
    rw [hcoords]
    exact qubit_complete h hq
  · rw [hcoords] at hi hj
    exact apart_complete h hi hj
  · exact lt_extent_of_operation ctx text hl hop hq
  · exact lt_extent_of_overlay ctx text hl ho hq

end Build

end StimOverlay
