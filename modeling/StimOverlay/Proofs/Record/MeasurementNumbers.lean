import StimOverlay.Proofs.Record.RunRecord

/-! Numbers of measurements. Collecting gives every measurement of a layer a number, by which it can be
looked up under its layer and first qubit; these numbers are the positions in the record that lists
the measurements of the layers in the order of the collection. -/

namespace StimOverlay

open Build

namespace Layer

/-- The measurements by their first qubit, numbered on from `start`. -/
def number (start : Nat) (entries : List (Site × List QubitId)) : Std.TreeMap QubitId Measured :=
  entries.foldl (fun found e => found.insert e.1.qubit ⟨start + found.size, e.2⟩) ∅

theorem measured_eq_number (l : Layer) (order : RecordOrder) (start k : Nat) :
    l.measured order start = number start (stage k (l.inOrder order)) := by
  unfold measured number stage
  rw [List.foldl_filterMap]
  congr 1
  funext found op
  cases op.targets <;> rfl

theorem number_concat (start : Nat) (entries : List (Site × List QubitId))
    (e : Site × List QubitId) :
    number start (entries ++ [e]) =
      (number start entries).insert e.1.qubit ⟨start + (number start entries).size, e.2⟩ := by
  rw [number, List.foldl_append]
  rfl

theorem size_number (start : Nat) {entries : List (Site × List QubitId)}
    (h : (entries.map (·.1.qubit)).Nodup) :
    (number start entries).size = entries.length ∧
      ∀ q, q ∈ number start entries ↔ q ∈ entries.map (·.1.qubit) := by
  induction entries using List.reverseRecOn with
  | nil => exact ⟨rfl, fun q => by simp [number]⟩
  | append_singleton entries e ih =>
      rw [List.map_append, List.nodup_append] at h
      obtain ⟨hsize, hmem⟩ := ih h.1
      have hnew : e.1.qubit ∉ number start entries := by
        rw [hmem]
        exact fun hin => h.2.2 _ hin _ List.mem_cons_self rfl
      rw [number_concat]
      constructor
      · rw [Std.TreeMap.size_insert, if_neg (by simpa using hnew), hsize, List.length_append]
        rfl
      · intro q
        rw [Std.TreeMap.mem_insert, Std.LawfulEqCmp.compare_eq_iff_eq, hmem, List.map_append,
          List.mem_append, or_comm, List.map_singleton, List.mem_singleton, eq_comm (a := q)]

/-- A measurement is found under its first qubit, with its position among the measurements. -/
theorem getElem?_number (start : Nat) {entries : List (Site × List QubitId)}
    (h : (entries.map (·.1.qubit)).Nodup) {q : QubitId} {m : Measured} :
    (number start entries)[q]? = some m ↔
      ∃ i e, entries[i]? = some e ∧ e.1.qubit = q ∧ m = ⟨start + i, e.2⟩ := by
  induction entries using List.reverseRecOn with
  | nil => simp [number]
  | append_singleton entries e ih =>
      have h' := h
      rw [List.map_append, List.nodup_append] at h'
      obtain ⟨hsize, -⟩ := size_number start h'.1
      rw [number_concat, Std.TreeMap.getElem?_insert, hsize]
      by_cases hq : e.1.qubit = q
      · rw [if_pos (by rw [hq]; exact Std.ReflCmp.compare_self)]
        constructor
        · rintro hm
          exact ⟨entries.length, e, by simp, hq, (Option.some_inj.1 hm).symm⟩
        · rintro ⟨i, e', hi, hq', rfl⟩
          rw [List.getElem?_append] at hi
          split at hi
          · have hmem : q ∈ entries.map (·.1.qubit) :=
              List.mem_map.2 ⟨e', List.mem_of_getElem? hi, hq'⟩
            exact absurd hq.symm (h'.2.2 q hmem _ List.mem_cons_self)
          · have hi' : i - entries.length = 0 := by
              have := (List.getElem?_eq_some_iff.1 hi).1
              rw [List.length_singleton] at this
              omega
            rw [hi'] at hi
            cases hi
            rw [show i = entries.length by omega]
      · rw [if_neg fun hc => hq (Std.LawfulEqCmp.eq_of_compare hc), ih h'.1]
        constructor
        · rintro ⟨i, e', hi, hrest⟩
          have hlt := (List.getElem?_eq_some_iff.1 hi).1
          exact ⟨i, e', by rw [List.getElem?_append_left hlt, hi], hrest⟩
        · rintro ⟨i, e', hi, hq', hm⟩
          rw [List.getElem?_append] at hi
          split at hi
          · exact ⟨i, e', hi, hq', hm⟩
          · have he := List.mem_of_getElem? hi
            rw [List.mem_singleton.1 he] at hq'
            exact absurd hq' hq

end Layer

/-- The layers hold no two measurements of one layer under the same first qubit. -/
def Separated (order : RecordOrder) (layers : List Layer) : Prop :=
  ∀ l ∈ layers, ∀ k, ((stage k (l.inOrder order)).map (·.1.qubit)).Nodup

namespace Circuit

/-- The record of layers in a given order, the first of which stands at position `k`. -/
def recordIn (order : RecordOrder) (k : Nat) (layers : List Layer) : List (Site × List QubitId) :=
  recordFrom k (layers.map (·.inOrder order))

/-- The measurement at a site, as it is found in collecting. -/
def measurementAt (order : RecordOrder) (layers : List Layer) (site : Site) : Option Measured :=
  (measuredFrom order 0 layers)[site.layer]?.bind (·.2[site.qubit]?)

theorem map_fst_measuredFrom (order : RecordOrder) (start : Nat) (layers : List Layer) :
    (measuredFrom order start layers).map (·.1) = layers := by
  induction layers generalizing start with
  | nil => rfl
  | cons l rest ih => rw [measuredFrom, List.map_cons, ih]

theorem total_measuredFrom {order : RecordOrder} {layers : List Layer}
    (h : Separated order layers) (start k : Nat) :
    Numeric.total ((measuredFrom order start layers).map (·.2.size)) =
      (recordIn order k layers).length := by
  induction layers generalizing start k with
  | nil => rfl
  | cons l rest ih =>
      have hsize := (Layer.size_number start (h l List.mem_cons_self k)).1
      have hrecord : recordIn order k (l :: rest) =
          stage k (l.inOrder order) ++ recordIn order (k + 1) rest := rfl
      rw [measuredFrom, List.map_cons, Numeric.total,
        ih (fun l' hl' => h l' (List.mem_cons_of_mem _ hl')) _ (k + 1), hrecord,
        List.length_append, ← hsize, Layer.measured_eq_number l order start k]

theorem getElem?_measuredFrom {order : RecordOrder} {layers : List Layer}
    (h : Separated order layers) (start k : Nat) {j : Nat} {q : QubitId} {m : Measured} :
    (measuredFrom order start layers)[j]?.bind (·.2[q]?) = some m ↔
      ∃ i, (recordIn order k layers)[i]? = some (⟨k + j, q⟩, m.qubits) ∧ m.number = start + i := by
  induction layers generalizing start k j with
  | nil => simp [measuredFrom, recordIn, recordFrom]
  | cons l rest ih =>
      have hnodup := h l List.mem_cons_self k
      have hsize := (Layer.size_number start hnodup).1
      have hrecord : recordIn order k (l :: rest) =
          stage k (l.inOrder order) ++ recordIn order (k + 1) rest := rfl
      have hlayer : ∀ e ∈ stage k (l.inOrder order), e.1.layer = k := fun e he => by
        obtain ⟨-, -, -, -, hk, -⟩ := mem_stage.1 he
        exact hk
      rw [measuredFrom, Layer.measured_eq_number l order start k, hrecord]
      cases j with
      | zero =>
          simp only [List.getElem?_cons_zero, Option.bind_some, Nat.add_zero]
          rw [Layer.getElem?_number start hnodup]
          constructor
          · rintro ⟨i, e, hi, rfl, rfl⟩
            have hlt := (List.getElem?_eq_some_iff.1 hi).1
            have he := hlayer e (List.mem_of_getElem? hi)
            exact ⟨i, by rw [List.getElem?_append_left hlt, hi, ← he], rfl⟩
          · rintro ⟨i, hi, hnumber⟩
            rw [List.getElem?_append] at hi
            split at hi
            · exact ⟨i, _, hi, rfl, by rw [← hnumber]⟩
            · have hmem := List.mem_of_getElem? hi
              have hk := (mem_recordFrom.1 hmem).1
              dsimp only at hk
              omega
      | succ j =>
          rw [List.getElem?_cons_succ, ih (fun l' hl' => h l' (List.mem_cons_of_mem _ hl')) _
            (k + 1), hsize]
          constructor
          · rintro ⟨i, hi, hnumber⟩
            refine ⟨(stage k (l.inOrder order)).length + i, ?_, by omega⟩
            rw [List.getElem?_append_right (by omega), Nat.add_sub_cancel_left, hi,
              show k + 1 + j = k + (j + 1) by omega]
          · rintro ⟨i, hi, hnumber⟩
            rw [List.getElem?_append] at hi
            split at hi
            · have hk := hlayer _ (List.mem_of_getElem? hi)
              dsimp only at hk
              omega
            · refine ⟨i - (stage k (l.inOrder order)).length, ?_, by omega⟩
              rw [hi, show k + 1 + j = k + (j + 1) by omega]

/-- The number of a measurement is its position in the record. -/
theorem measurementAt_eq_some_iff {order : RecordOrder} {layers : List Layer}
    (h : Separated order layers) {site : Site} {m : Measured} :
    measurementAt order layers site = some m ↔
      (recordIn order 0 layers)[m.number]? = some (site, m.qubits) := by
  rw [measurementAt, getElem?_measuredFrom h 0 0]
  constructor
  · rintro ⟨i, hi, hnumber⟩
    rw [show m.number = i by omega, hi, Nat.zero_add]
  · intro hi
    exact ⟨m.number, by rw [hi, Nat.zero_add], (Nat.zero_add _).symm⟩

end Circuit

end StimOverlay
