import Mathlib.Data.Fintype.EquivFin
import StimOverlay.Proofs.Emission.WrittenOffsets

/-! Two orders of the record. The record in the order of placement and the record in the order of the
output list the same measurements, so one permutation of their numbers leads from all that is collected
in the one order to all that is collected in the other. -/

namespace StimOverlay

open Build Numeric

variable {n : Nat}

/-- A permutation of the numbers below `n` that leaves the others alone. -/
def extended (p : Equiv.Perm (Fin n)) : Equiv.Perm Nat := p.extendDomain Fin.equivSubtype

theorem extended_val (p : Equiv.Perm (Fin n)) (i : Fin n) : extended p i = p i :=
  p.extendDomain_apply_image Fin.equivSubtype i

/-- A measurement under the number that a permutation gives it. -/
def Measured.reorder (p : Equiv.Perm (Fin n)) (m : Measured) : Measured :=
  { m with number := extended p m.number }

/-- An offset from the end of a record of `n` measurements that is permuted. -/
def reorderOffset (p : Equiv.Perm (Fin n)) (o : Int) : Int := (extended p (o + n).toNat : Int) - n

/-- Offsets from the end of a record that is permuted, again in descending order. -/
def reorderOffsets (p : Equiv.Perm (Fin n)) (os : List Int) : List Int :=
  Circuit.descending (os.map (reorderOffset p))

def Detector.reorder (p : Equiv.Perm (Fin n)) (d : Detector) : Detector :=
  { d with offsets := reorderOffsets p d.offsets }

theorem reorderOffset_number (p : Equiv.Perm (Fin n)) (k : Nat) :
    reorderOffset p ((k : Int) - n) = (extended p k : Int) - n := by
  rw [reorderOffset, Int.sub_add_cancel, Int.toNat_natCast]

/-- Enumerations of the same things differ by a permutation. -/
theorem exists_permutation {l m : List α} (hl : l.Nodup) (hlength : l.length = n)
    (hlength' : m.length = n) (hmem : ∀ a ∈ l, a ∈ m) :
    ∃ p : Equiv.Perm (Fin n), ∀ i : Fin n, m[(p i : Nat)]? = l[(i : Nat)]? := by
  have hplace (i : Fin n) : ∃ j : Fin n, m[(j : Nat)]? = l[(i : Nat)]? := by
    have hi : (i : Nat) < l.length := hlength ▸ i.isLt
    obtain ⟨j, hj⟩ := List.mem_iff_getElem?.1 (hmem _ (List.getElem_mem hi))
    have hlt : j < n := hlength' ▸ (List.getElem?_eq_some_iff.1 hj).1
    exact ⟨⟨j, hlt⟩, by rw [hj, List.getElem?_eq_getElem hi]⟩
  choose f hf using hplace
  have hinjective : Function.Injective f := fun i j h => by
    have heq : l[(i : Nat)]? = l[(j : Nat)]? := by rw [← hf i, ← hf j, h]
    exact Fin.ext ((List.getElem?_inj (hlength ▸ i.isLt) hl).1 heq)
  exact ⟨.ofBijective f (Finite.injective_iff_bijective.1 hinjective), hf⟩

namespace Circuit

def Reference.reorder (p : Equiv.Perm (Fin n)) (r : Reference) : Reference :=
  { r with measured := r.measured.map (Measured.reorder p) }

variable {layers : List Layer} {p : Equiv.Perm (Fin n)}

/-- Every measurement is found under the number that the permutation gives it. -/
def Reordered (p : Equiv.Perm (Fin n)) (layers : List Layer) : Prop :=
  ∀ site, measurementAt .output layers site =
    (measurementAt .placement layers site).map (Measured.reorder p)

theorem references_reorder {marks : List (Nat × Operation)} (hmarked : Marked layers marks)
    (h : Reordered p layers) (name : String) :
    references name (measuredFrom .output 0 layers) =
      (references name (measuredFrom .placement 0 layers)).map (Reference.reorder p) := by
  have hreference (e : Nat × Operation) : referenceOf .output layers e =
      ((referenceOf .placement layers e).1, (referenceOf .placement layers e).2.reorder p) := by
    unfold referenceOf Reference.reorder
    cases e.2.targets.head? with
    | none => rfl
    | some q => simp [h ⟨e.1, q⟩]
  let g (x : Nat × Reference) : Nat × Reference := (x.1, x.2.reorder p)
  have hmap : (marks.filter (·.2.gate.name == name)).map (referenceOf .output layers) =
      ((marks.filter (·.2.gate.name == name)).map (referenceOf .placement layers)).map g := by
    rw [List.map_map]
    exact List.map_congr_left fun e _ => hreference e
  rw [references_eq hmarked, references_eq hmarked, hmap,
    ← map_byLayer layers.length (·.1) (·.1) g fun _ => rfl, List.map_map, List.map_map]
  rfl

theorem gathered_reorder (refs : List Reference) (slot : Nat) :
    gathered (refs.map (Reference.reorder p)) slot =
      (gathered refs slot).map (Measured.reorder p) := by
  have hmeasured (r : Reference) : (r.reorder p).measured.toList =
      r.measured.toList.map (Measured.reorder p) := Option.toList_map ..
  rw [gathered, gathered, List.filter_map, List.flatMap_map, List.map_flatMap]
  exact List.flatMap_congr fun r _ => hmeasured r

theorem bySlot_reorder (refs : List Reference) :
    bySlot (refs.map (Reference.reorder p)) =
      (bySlot refs).map fun e => (e.1, e.2.map (Measured.reorder p)) := by
  refine bySlot_eq (List.pairwise_map.2 (pairwise_bySlot refs)) fun e => ?_
  have hslot : (∃ r ∈ refs.map (Reference.reorder p), r.slot = e.1) ↔ ∃ r ∈ refs, r.slot = e.1 := by
    simp [Reference.reorder]
  rw [hslot, gathered_reorder, List.mem_map]
  constructor
  · rintro ⟨entry, hentry, rfl⟩
    obtain ⟨hused, hfound⟩ := mem_bySlot.1 hentry
    exact ⟨hused, by rw [hfound]⟩
  · rintro ⟨hused, hfound⟩
    exact ⟨(e.1, gathered refs e.1), mem_bySlot.2 ⟨hused, rfl⟩, by rw [← hfound]⟩

theorem number_mem_offsets {found : List Measured} {k : Nat} :
    (k : Int) - n ∈ offsets n found ↔ ∃ m ∈ found, m.number = k := by
  rw [mem_offsets]
  exact exists_congr fun m => and_congr_right fun _ => by omega

theorem offsets_reorder (p : Equiv.Perm (Fin n)) (found : List Measured) :
    offsets n (found.map (Measured.reorder p)) = reorderOffsets p (offsets n found) := by
  refine eq_of_descending (descending_pairwise _) (descending_pairwise _) fun o => ?_
  rw [mem_offsets, reorderOffsets, mem_descending, List.mem_map]
  constructor
  · rintro ⟨m', hm', rfl⟩
    obtain ⟨m, hm, rfl⟩ := List.mem_map.1 hm'
    exact ⟨_, mem_offsets.2 ⟨m, hm, rfl⟩, reorderOffset_number p m.number⟩
  · rintro ⟨o', ho', rfl⟩
    obtain ⟨m, hm, rfl⟩ := mem_offsets.1 ho'
    exact ⟨_, List.mem_map_of_mem hm, reorderOffset_number p m.number⟩

/-- A permutation keeps different offsets apart. -/
theorem offsets_reorder_inj {p : Equiv.Perm (Fin n)} {found found' : List Measured} :
    reorderOffsets p (offsets n found) = reorderOffsets p (offsets n found') ↔
      offsets n found = offsets n found' := by
  refine ⟨fun h => ?_, congrArg _⟩
  have hmem (found : List Measured) (k : Nat) :
      (extended p k : Int) - n ∈ offsets n (found.map (Measured.reorder p)) ↔
        (k : Int) - n ∈ offsets n found := by
    simp [number_mem_offsets, Measured.reorder]
  have hsub {found found' : List Measured}
      (h : reorderOffsets p (offsets n found) = reorderOffsets p (offsets n found')) :
      ∀ o ∈ offsets n found, o ∈ offsets n found' := by
    intro o ho
    obtain ⟨m, -, rfl⟩ := mem_offsets.1 ho
    rw [← hmem, offsets_reorder] at ho ⊢
    exact h ▸ ho
  exact eq_of_descending (descending_pairwise _) (descending_pairwise _) fun o =>
    ⟨hsub h o, hsub h.symm o⟩

theorem distinctDetectors_reorder (slots : List (Nat × List Measured)) :
    distinctDetectors n (slots.map fun e => (e.1, e.2.map (Measured.reorder p))) =
      (distinctDetectors n slots).map (Detector.reorder p) := by
  let named (e : Nat × List Measured) : Option Detector :=
    if e.2.isEmpty then none
    else some { offsets := offsets n e.2, qubits := e.2.flatMap (·.qubits) }
  have hnamed (e : Nat × List Measured) : named (e.1, e.2.map (Measured.reorder p)) =
      (named e).map (Detector.reorder p) := by
    dsimp only [named]
    rw [offsets_reorder, List.isEmpty_map, List.flatMap_map]
    split_ifs <;> rfl
  have hmap : (slots.map fun e => (e.1, e.2.map (Measured.reorder p))).filterMap named =
      (slots.filterMap named).map (Detector.reorder p) := by
    rw [List.filterMap_map, List.map_filterMap]
    exact List.filterMap_congr fun e _ => hnamed e
  have hoffsets : ∀ d ∈ slots.filterMap named, ∃ found, d.offsets = offsets n found := by
    intro d hd
    obtain ⟨e, -, he⟩ := List.mem_filterMap.1 hd
    dsimp only [named] at he
    split_ifs at he
    cases he
    exact ⟨e.2, rfl⟩
  have happly := eraseDupsBy_map (f := Detector.offsets) (g := Detector.reorder p)
    (l := slots.filterMap named) fun a ha b hb => by
      obtain ⟨found, hfound⟩ := hoffsets a ha
      obtain ⟨found', hfound'⟩ := hoffsets b hb
      rw [Bool.eq_iff_iff, beq_iff_eq, beq_iff_eq, Detector.reorder, Detector.reorder, hfound,
        hfound']
      exact offsets_reorder_inj
  rw [← hmap] at happly
  exact happly

end Circuit

namespace Build

variable (text : String)

theorem nodup_record (order : RecordOrder) :
    (Circuit.recordIn order 0 (parse text).circuit.layers).Nodup := by
  rw [List.nodup_iff_getElem?_ne_getElem?]
  intro i j hlt hj heq
  have hfound {k : Nat} (hk : (Circuit.recordIn order 0 (parse text).circuit.layers)[k]? =
      some (Circuit.recordIn order 0 (parse text).circuit.layers)[j]) :=
    (Circuit.measurementAt_eq_some_iff (m := ⟨k, _⟩) (separated_of_order text order)).2 hk
  have hsame := (hfound (heq.trans (List.getElem?_eq_getElem hj))).symm.trans
    (hfound (List.getElem?_eq_getElem hj))
  exact Nat.ne_of_lt hlt (congrArg Measured.number (Option.some.inj hsame))

theorem exists_reordered :
    ∃ p : Equiv.Perm (Fin (parse text).circuit.measurements), ∀ i : Fin _,
      (Circuit.recordIn .output 0 (parse text).circuit.layers)[(p i : Nat)]? =
        (Circuit.recordIn .placement 0 (parse text).circuit.layers)[(i : Nat)]? :=
  exists_permutation (nodup_record text .placement) (length_record_parse text)
    (length_record_output text) fun _ he => mem_record_output.2 he

variable {text}

theorem reordered_of_record {p : Equiv.Perm (Fin (parse text).circuit.measurements)}
    (hp : ∀ i : Fin _, (Circuit.recordIn .output 0 (parse text).circuit.layers)[(p i : Nat)]? =
      (Circuit.recordIn .placement 0 (parse text).circuit.layers)[(i : Nat)]?) :
    Circuit.Reordered p (parse text).circuit.layers := by
  intro site
  refine Option.ext fun m => ?_
  rw [Circuit.measurementAt_eq_some_iff (separated_of_order text .output), Option.map_eq_some_iff]
  constructor
  · intro hm
    have hlt : m.number < (parse text).circuit.measurements := by
      rw [← length_record_output]
      exact (List.getElem?_eq_some_iff.1 hm).1
    have hat := hp (p.symm ⟨m.number, hlt⟩)
    rw [Equiv.apply_symm_apply, hm] at hat
    refine ⟨⟨p.symm ⟨m.number, hlt⟩, m.qubits⟩,
      (Circuit.measurementAt_eq_some_iff (separated_of_order text .placement)).2 hat.symm, ?_⟩
    rw [Measured.reorder, extended_val, Equiv.apply_symm_apply]
  · rintro ⟨m, hm, rfl⟩
    rw [Circuit.measurementAt_eq_some_iff (separated_of_order text .placement)] at hm
    have hlt : m.number < (parse text).circuit.measurements := by
      rw [← length_record_parse]
      exact (List.getElem?_eq_some_iff.1 hm).1
    have hat := hp ⟨m.number, hlt⟩
    rw [hm, ← extended_val] at hat
    exact hat

theorem detectors_reorder {p : Equiv.Perm (Fin (parse text).circuit.measurements)}
    (h : Circuit.Reordered p (parse text).circuit.layers) :
    ((parse text).circuit.detectors .output).detectors.Perm
      (((parse text).circuit.detectors .placement).detectors.map (Detector.reorder p)) := by
  unfold Circuit.detectors
  dsimp only
  rw [total_measuredFrom_parse, total_measuredFrom_parse,
    Circuit.references_reorder (marked_parse text) h, Circuit.bySlot_reorder,
    Circuit.distinctDetectors_reorder]
  exact (List.mergeSort_perm _ _).trans ((List.mergeSort_perm _ _).symm.map _)

theorem observables_reorder {p : Equiv.Perm (Fin (parse text).circuit.measurements)}
    (h : Circuit.Reordered p (parse text).circuit.layers) :
    ((parse text).circuit.detectors .output).observables =
      ((parse text).circuit.detectors .placement).observables.map fun e =>
        (e.1, reorderOffsets p e.2) := by
  let inRange (r : Circuit.Reference) : Circuit.Reference :=
    { r with slot := r.slot % indexModulus }
  have hslots (refs : List Circuit.Reference) : (refs.map (Circuit.Reference.reorder p)).map inRange =
      (refs.map inRange).map (Circuit.Reference.reorder p) := by
    rw [List.map_map, List.map_map]
    rfl
  unfold Circuit.detectors
  dsimp only
  rw [total_measuredFrom_parse, total_measuredFrom_parse,
    Circuit.references_reorder (marked_parse text) h, hslots, Circuit.bySlot_reorder,
    List.map_map, List.map_map]
  exact List.map_congr_left fun e _ => congrArg (e.1, ·) (Circuit.offsets_reorder p e.2)

/-- **Two orders, one permutation.** The measurements of a parsed circuit have the numbers below their
count in both orders, and one permutation leads from those of placement to those of the output, each
measurement staying where it is. It leads from the detectors and observables that are collected in the
order of placement to those that are collected in the order of the output. -/
theorem orders_permuted (text : String) :
    ∃ p : Equiv.Perm (Fin (parse text).circuit.measurements),
      (∀ i : Fin _, ∃ site qubits,
        Circuit.measurementAt .placement (parse text).circuit.layers site = some ⟨i, qubits⟩ ∧
          Circuit.measurementAt .output (parse text).circuit.layers site = some ⟨p i, qubits⟩) ∧
      ((parse text).circuit.detectors .output).detectors.Perm
        (((parse text).circuit.detectors .placement).detectors.map (Detector.reorder p)) ∧
      ((parse text).circuit.detectors .output).detectors.length =
        ((parse text).circuit.detectors .placement).detectors.length ∧
      ((parse text).circuit.detectors .output).observables =
        (((parse text).circuit.detectors .placement).observables.map fun e =>
          (e.1, reorderOffsets p e.2)) ∧
      (∀ order, total ((Circuit.measuredFrom order 0 (parse text).circuit.layers).map (·.2.size)) =
        (parse text).circuit.measurements) ∧
      ∀ order os, (os ∈ ((parse text).circuit.detectors order).detectors.map (·.offsets) ∨
          os ∈ ((parse text).circuit.detectors order).observables.map (·.2)) →
        ∀ o ∈ os, o < 0 ∧ 0 ≤ ((parse text).circuit.measurements : Int) + o := by
  obtain ⟨p, hp⟩ := exists_reordered text
  have hreordered := reordered_of_record hp
  have hdetectors := detectors_reorder hreordered
  refine ⟨p, fun i => ?_, hdetectors, ?_, observables_reorder hreordered,
    fun order => total_measuredFrom_parse order text, ?_⟩
  · have hi : (i : Nat) < (Circuit.recordIn .placement 0 (parse text).circuit.layers).length := by
      rw [length_record_parse]
      exact i.isLt
    have hplacement := List.getElem?_eq_getElem hi
    have houtput := (hp i).trans hplacement
    exact ⟨_, _,
      (Circuit.measurementAt_eq_some_iff (separated_of_order text .placement)).2 hplacement,
      (Circuit.measurementAt_eq_some_iff (separated_of_order text .output)).2 houtput⟩
  · rw [hdetectors.length_eq, List.length_map]
  · rintro order os (hos | hos)
    · obtain ⟨d, hd, rfl⟩ := List.mem_map.1 hos
      exact (due_detector hd).range
    · obtain ⟨e, he, rfl⟩ := List.mem_map.1 hos
      exact (due_observable he).range

end Build

end StimOverlay
