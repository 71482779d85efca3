import StimOverlay.Proofs.Checked.BuildingLookups
import StimOverlay.Proofs.Layer.LayerOrigins
import StimOverlay.Proofs.Record.OutputRecord

/-! Checked collecting. A measuring operation is found by its first target, a detector by its position in
an array of slots that grows as needed, and the detectors are sorted by their first offsets; all of these
are looked up. They are there: every operation has a target, an array that is too short for a slot is
lengthened first, and only detectors that name a measurement are sorted. -/

namespace StimOverlay

open Build Numeric Circuit

namespace Checked

/-- The measurements of a layer by their first target, which is looked up. -/
def measured (l : Layer) (order : RecordOrder) (start : Nat) :
    Option (Std.TreeMap QubitId Measured) :=
  ((l.inOrder order).filter Operation.isMeasurement).foldlM
    (fun found op => op.targets[0]?.map fun q => found.insert q ⟨start + found.size, op.targets⟩) ∅

def measuredFrom (order : RecordOrder) (start : Nat) :
    List Layer → Option (List (Layer × Std.TreeMap QubitId Measured))
  | [] => some []
  | l :: rest => do
      let found ← measured l order start
      let more ← measuredFrom order (start + found.size) rest
      some ((l, found) :: more)

/-- An array that has position `k`, with empty entries appended if need be. -/
def lengthen (slots : Array (List Measured)) (k : Nat) : Array (List Measured) :=
  slots ++ Array.replicate (k + 1 - slots.size) []

/-- Adds the measurement that a reference names to its slot, which is looked up. -/
def gatherOne (slots : Array (List Measured)) (r : Reference) : Option (Array (List Measured)) :=
  let slots := lengthen slots r.slot
  match r.measured with
  | none => some slots
  | some m => slots[r.slot]?.map fun held => slots.setIfInBounds r.slot (held ++ [m])

/-- The measurements that references name, by slot. -/
def gather (refs : List Reference) : Option (Array (List Measured)) := refs.foldlM gatherOne #[]

/-- The slots of an array, each with its number. -/
def listed (slots : Array (List Measured)) : List (Nat × List Measured) :=
  slots.toList.zipIdx.map fun entry => (entry.2, entry.1)

/-- Sorts detectors by their first offsets, which are looked up. -/
def sort (ds : List Detector) : Option (List Detector) :=
  (ds.mapM fun d => d.offsets[0]?.map fun first => (first, d)).map fun keyed =>
    (keyed.mergeSort fun a b => decide (a.1 ≤ b.1)).map (·.2)

/-- The detectors and observables of a circuit. -/
def detectors (c : Circuit) (order : RecordOrder) : Option DetectorSummary := do
  let layers ← measuredFrom order 0 c.layers
  let recorded := total (layers.map (·.2.size))
  let slots ← gather (references detectorName layers)
  let sorted ← sort (distinctDetectors recorded (listed slots))
  let observed := (references observableName layers).map fun r =>
    { r with slot := r.slot % indexModulus }
  some {
    detectors := sorted
    observables := (bySlot observed).map fun entry => (entry.1, offsets recorded entry.2) }

/-- Every operation of the layer acts on something. -/
def Targeted (l : Layer) : Prop := ∀ op ∈ l.operationsAndMarkers, op.targets ≠ []

theorem foldlM_eq_some {f : β → α → Option β} {g : β → α → β} {l : List α}
    (h : ∀ a ∈ l, ∀ b, f b a = some (g b a)) (b : β) : l.foldlM f b = some (l.foldl g b) := by
  induction l generalizing b with
  | nil => rfl
  | cons a rest ih =>
      rw [List.foldlM_cons, h a List.mem_cons_self]
      exact ih (fun a' ha' => h a' (List.mem_cons_of_mem _ ha')) (g b a)

theorem mem_of_mem_inOrder {l : Layer} {order : RecordOrder} {op : Operation}
    (h : op ∈ l.inOrder order) : op ∈ l.operationsAndMarkers := by
  cases order with
  | placement => exact List.mem_append_left _ h
  | output =>
      rw [Layer.inOrder, Layer.groups, List.flatMap_append, List.mem_append] at h
      rcases h with h | h
      · exact List.mem_of_mem_filter ((Layer.grouped_perm _).mem_iff.1 h)
      · exact List.mem_of_mem_filter ((Layer.grouped_perm _).mem_iff.1 h)

theorem measured_eq {l : Layer} (h : Targeted l) (order : RecordOrder) (start : Nat) :
    measured l order start = some (l.measured order start) := by
  refine foldlM_eq_some (fun op hop found => ?_) ∅
  have hne := h op (mem_of_mem_inOrder (List.mem_of_mem_filter hop))
  cases htargets : op.targets with
  | nil => exact absurd htargets hne
  | cons q rest => rfl

theorem measuredFrom_eq {layers : List Layer} (h : ∀ l ∈ layers, Targeted l) (order : RecordOrder)
    (start : Nat) :
    measuredFrom order start layers = some (Circuit.measuredFrom order start layers) := by
  induction layers generalizing start with
  | nil => rfl
  | cons l rest ih =>
      obtain ⟨hl, hrest⟩ := List.forall_mem_cons.1 h
      rw [measuredFrom, measured_eq hl, Option.bind_eq_bind, Option.bind_some, ih hrest]
      rfl

theorem lt_size_lengthen (slots : Array (List Measured)) (k : Nat) :
    k < (lengthen slots k).size := by
  rw [lengthen, Array.size_append, Array.size_replicate]
  omega

theorem size_le_size_lengthen (slots : Array (List Measured)) (k : Nat) :
    slots.size ≤ (lengthen slots k).size := by
  rw [lengthen, Array.size_append]
  exact Nat.le_add_right _ _

theorem getD_lengthen (slots : Array (List Measured)) (k j : Nat) :
    (lengthen slots k)[j]?.getD [] = slots[j]?.getD [] := by
  rw [lengthen, Array.getElem?_append]
  split
  · rfl
  · rename_i hle
    rw [Array.getElem?_eq_none (Nat.le_of_not_lt hle), Array.getElem?_replicate]
    split <;> rfl

/-- An array that holds, slot by slot, what references name. -/
structure Gathered (refs : List Reference) (slots : Array (List Measured)) : Prop where
  inside : ∀ r ∈ refs, r.slot < slots.size
  held : ∀ k, slots[k]?.getD [] = gathered refs k

theorem gathered_concat (refs : List Reference) (r : Reference) (k : Nat) :
    gathered (refs ++ [r]) k = gathered refs k ++ if r.slot = k then r.measured.toList else [] := by
  rw [gathered, gathered, List.filter_append, List.flatMap_append]
  by_cases h : r.slot = k <;> simp [h]

/-- The slot of a reference is there once the array has been lengthened for it. -/
theorem Gathered.gatherOne {refs : List Reference} {slots : Array (List Measured)}
    (h : Gathered refs slots) (r : Reference) :
    ∃ slots', gatherOne slots r = some slots' ∧ Gathered (refs ++ [r]) slots' := by
  have hinside : ∀ r' ∈ refs ++ [r], r'.slot < (lengthen slots r.slot).size := by
    intro r' hr'
    rcases List.mem_append.1 hr' with hr' | hr'
    · exact Nat.lt_of_lt_of_le (h.inside r' hr') (size_le_size_lengthen _ _)
    · rw [List.mem_singleton.1 hr']
      exact lt_size_lengthen _ _
  cases hmeasured : r.measured with
  | none =>
      refine ⟨lengthen slots r.slot, by simp only [Checked.gatherOne, hmeasured], hinside,
        fun k => ?_⟩
      rw [getD_lengthen, h.held, gathered_concat, hmeasured]
      simp
  | some m =>
      have hslot := lt_size_lengthen slots r.slot
      refine ⟨(lengthen slots r.slot).setIfInBounds r.slot ((lengthen slots r.slot)[r.slot] ++ [m]),
        ?_, fun r' hr' => ?_, fun k => ?_⟩
      · simp only [Checked.gatherOne, hmeasured, Array.getElem?_eq_getElem hslot, Option.map_some]
      · rw [Array.size_setIfInBounds]
        exact hinside r' hr'
      · have hold : (lengthen slots r.slot)[r.slot] = gathered refs r.slot := by
          rw [← h.held, ← getD_lengthen slots r.slot, Array.getElem?_eq_getElem hslot]
          rfl
        rw [gathered_concat, hmeasured, Array.getElem?_setIfInBounds]
        by_cases hk : r.slot = k
        · subst hk
          simp [hslot, hold]
        · rw [if_neg hk, if_neg hk, getD_lengthen, h.held, List.append_nil]

theorem exists_gather (refs : List Reference) :
    ∃ slots, gather refs = some slots ∧ Gathered refs slots := by
  induction refs using List.reverseRecOn with
  | nil => exact ⟨#[], rfl, fun r hr => absurd hr List.not_mem_nil, fun k => by simp [gathered]⟩
  | append_singleton refs r ih =>
      obtain ⟨slots, hslots, hgathered⟩ := ih
      obtain ⟨slots', hslots', hgathered'⟩ := hgathered.gatherOne r
      refine ⟨slots', ?_, hgathered'⟩
      rw [gather, List.foldlM_append, ← gather, hslots]
      simpa using hslots'

theorem mem_listed {slots : Array (List Measured)} {e : Nat × List Measured} :
    e ∈ listed slots ↔ slots[e.1]? = some e.2 := by
  rw [listed, List.mem_map]
  constructor
  · rintro ⟨⟨found, k⟩, hmem, rfl⟩
    rw [List.mem_zipIdx_iff_getElem?, Array.getElem?_toList] at hmem
    exact hmem
  · intro h
    refine ⟨(e.2, e.1), ?_, rfl⟩
    rw [List.mem_zipIdx_iff_getElem?, Array.getElem?_toList]
    exact h

theorem pairwise_listed (slots : Array (List Measured)) :
    (listed slots).Pairwise fun a b => a.1 < b.1 :=
  List.pairwise_map.2 (pairwise_zipIdx slots.toList)

/-- The slots that name a measurement are the same in an array and by key. -/
theorem filter_listed {refs : List Reference} {slots : Array (List Measured)}
    (h : Gathered refs slots) : (listed slots).filter (fun e => !e.2.isEmpty) =
      (bySlot refs).filter fun e => !e.2.isEmpty := by
  refine eq_of_ascending ((pairwise_listed slots).filter _) ((pairwise_bySlot refs).filter _)
    fun e => ?_
  rw [List.mem_filter, List.mem_filter, mem_listed, mem_bySlot]
  refine and_congr_left fun hne => ?_
  have hne : e.2 ≠ [] := by simpa using hne
  -- A slot that names something has a reference, which a slot that only fills up the array has not.
  constructor
  · intro hslot
    have hheld : e.2 = gathered refs e.1 := by
      rw [← h.held, hslot, Option.getD_some]
    obtain ⟨m, hm⟩ := List.exists_mem_of_ne_nil _ (hheld ▸ hne)
    obtain ⟨r, hr, -⟩ := List.mem_flatMap.1 hm
    obtain ⟨hmem, heq⟩ := List.mem_filter.1 hr
    exact ⟨⟨r, hmem, by simpa using heq⟩, hheld⟩
  · rintro ⟨⟨r, hr, hslot⟩, hheld⟩
    have hlt : e.1 < slots.size := hslot ▸ h.inside r hr
    rw [hheld, ← h.held, Array.getElem?_eq_getElem hlt, Option.getD_some]

theorem distinctDetectors_filter (recorded : Nat) (slots : List (Nat × List Measured)) :
    distinctDetectors recorded (slots.filter fun e => !e.2.isEmpty) =
      distinctDetectors recorded slots := by
  rw [distinctDetectors, distinctDetectors, List.filterMap_filter]
  congr 2
  funext e
  cases e.2.isEmpty <;> rfl

theorem offsets_ne_nil {recorded : Nat} {slots : List (Nat × List Measured)} {d : Detector}
    (h : d ∈ distinctDetectors recorded slots) : d.offsets ≠ [] := by
  obtain ⟨e, -, he⟩ := List.mem_filterMap.1 ((eraseDupsBy_sublist _ _).subset h)
  split_ifs at he with hempty
  cases he
  obtain ⟨m, hm⟩ := List.exists_mem_of_ne_nil e.2 (by simpa using hempty)
  exact List.ne_nil_of_mem (mem_descending.2 (List.mem_map_of_mem hm))

theorem mapM_eq_some {f : α → Option β} {g : α → β} {l : List α} (h : ∀ a ∈ l, f a = some (g a)) :
    l.mapM f = some (l.map g) := by
  induction l with
  | nil => rfl
  | cons a rest ih =>
      rw [List.mapM_cons, h a List.mem_cons_self, ih fun a' ha' => h a' (List.mem_cons_of_mem _ ha')]
      rfl

theorem sort_eq {ds : List Detector} (h : ∀ d ∈ ds, d.offsets ≠ []) :
    sort ds = some (ds.mergeSort fun a b => decide (a.offsets.headD 0 ≤ b.offsets.headD 0)) := by
  have hkeys : ∀ d ∈ ds, (d.offsets[0]?.map fun first => (first, d)) =
      some (d.offsets.headD 0, d) := by
    intro d hd
    obtain ⟨first, rest, hoffsets⟩ := List.exists_cons_of_ne_nil (h d hd)
    rw [hoffsets]
    rfl
  have hsorted := List.map_mergeSort (f := fun d : Detector => (d.offsets.headD 0, d))
    (r := fun a b => decide (a.offsets.headD 0 ≤ b.offsets.headD 0))
    (s := fun a b => decide (a.1 ≤ b.1)) (l := ds) fun _ _ _ _ => rfl
  rw [sort, mapM_eq_some hkeys, Option.map_some, ← hsorted, List.map_map]
  exact congrArg some (List.map_id _)

theorem detectors_eq {c : Circuit} (h : ∀ l ∈ c.layers, Targeted l) (order : RecordOrder) :
    detectors c order = some (c.detectors order) := by
  obtain ⟨slots, hslots, hgathered⟩ :=
    exists_gather (references detectorName (Circuit.measuredFrom order 0 c.layers))
  have hsame : ∀ recorded, distinctDetectors recorded (listed slots) = distinctDetectors recorded
      (bySlot (references detectorName (Circuit.measuredFrom order 0 c.layers))) := by
    intro recorded
    rw [← distinctDetectors_filter, filter_listed hgathered, distinctDetectors_filter]
  rw [detectors, measuredFrom_eq h]
  simp only [Option.bind_eq_bind, Option.bind_some, hslots, hsame]
  rw [sort_eq fun d => offsets_ne_nil]
  rfl

/-- The only operations that an instruction marks are those of feedback, which acts on a qubit. -/
theorem targets_ne_nil_of_mark {ctx : Context} {acts : List Act} {op : Operation}
    (h : Move.mark op ∈ moves ctx acts) : op.targets ≠ [] := by
  obtain ⟨a, -, k, hk⟩ := mem_movesFrom h
  obtain ⟨line, i, -, hmove⟩ := instruction_of_mem_moves hk
  obtain ⟨-, hm⟩ | ⟨-, hm⟩ | ⟨-, ⟨_, hm, -⟩ | ⟨err, q, -, -, hm⟩⟩ := instructionMoves_cases hmove
  · cases hm
  · obtain ⟨_, -, ⟨-, hm⟩ | ⟨_, -, hm⟩⟩ := detector_or_observable_of_markerMoves hm
    · cases hm
    · cases hm
  · cases hm
  · cases hm
    exact List.cons_ne_nil q []

theorem targeted_parseWith (ctx : Context) (text : String) :
    ∀ l ∈ (parseWith ctx text).circuit.layers, Targeted l := by
  refine all_parseWith (P := fun op => op.targets ≠ []) ctx text fun m hm n _ op hop => ?_
  cases hop with
  | place op => exact grounded_of_mem_moves hm
  | mark op => exact targets_ne_nil_of_mark hm
  | detector tag line numbers q => exact List.cons_ne_nil q []
  | observable index tag line numbers q => exact List.cons_ne_nil q []

end Checked

end StimOverlay
