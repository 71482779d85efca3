import StimOverlay.Proofs.Emission.WrittenOffsets
import StimOverlay.Proofs.Numeric.BoundedSums

/-! Labels of detectors. A detector is labelled with a place that can be written down, and with a time
that is less than the number of detectors: a label of a time that no detector had before is free, so that
each detector adds at most one time. -/

namespace StimOverlay

open Build Numeric

namespace Emission

/-- A place of finite coordinates, as text. -/
def IsPlace (s : String) : Prop :=
  ∃ place : Point, place.x.isFinite ∧ place.y.isFinite ∧ s = place.text

theorem firstFree_place (used : Std.TreeSet String) {places : List String} (hne : places ≠ [])
    (tries time : Nat) : (firstFree used places tries time).place ∈ places := by
  induction tries generalizing time with
  | zero =>
      obtain ⟨place, rest, rfl⟩ := List.exists_cons_of_ne_nil hne
      exact List.mem_cons_self
  | succ tries ih =>
      rw [firstFree]
      split
      case h_1 label hfound =>
        obtain ⟨place, hplace, rfl⟩ := List.mem_map.1 (List.mem_of_find?_eq_some hfound)
        exact hplace
      case h_2 => exact ih (time + 1)

/-- The search does not go beyond a time at which all labels are new. -/
theorem firstFree_time_le {used : Std.TreeSet String} {places : List String} (hne : places ≠ [])
    {limit : Nat} (hfree : ∀ place ∈ places, used.contains (Label.text ⟨place, limit⟩) = false)
    (tries : Nat) {time : Nat} (htime : time ≤ limit) :
    (firstFree used places tries time).time ≤ limit := by
  induction tries generalizing time with
  | zero => exact htime
  | succ tries ih =>
      rw [firstFree]
      split
      case h_1 label hfound =>
        obtain ⟨place, -, rfl⟩ := List.mem_map.1 (List.mem_of_find?_eq_some hfound)
        exact htime
      case h_2 hnone =>
        refine ih (Nat.lt_of_le_of_ne htime ?_)
        rintro rfl
        obtain ⟨place, rest, rfl⟩ := List.exists_cons_of_ne_nil hne
        have hused := List.find?_eq_none.1 hnone _ (List.mem_map_of_mem List.mem_cons_self)
        rw [hfree place List.mem_cons_self] at hused
        exact hused rfl

/-- The time of a label is the number behind its last comma. -/
theorem time_eq_of_text {a b : Label} (h : a.text = b.text) : a.time = b.time := by
  have hdigits (label : Label) : ((label.text.toList.reverse.drop 1).takeWhile Char.isDigit).reverse =
      Nat.toDigits 10 label.time := by
    have htext : label.text = "DETECTOR(" ++ label.place ++ ", " ++ toString label.time ++ ")" := rfl
    have hall : ∀ c ∈ (Nat.toDigits 10 label.time).reverse, c.isDigit := fun c hc =>
      isDigit_of_mem_toDigits (List.mem_reverse.1 hc)
    rw [htext]
    simp [List.takeWhile_append_of_pos hall]
  rw [← ofDigits_toDigits a.time, ← ofDigits_toDigits b.time, ← hdigits a, ← hdigits b, h]

variable {c : Circuit}

/-- A detector on the qubits is labelled with a place that can be written down. -/
def Placeable (c : Circuit) (qubits : List QubitId) : Prop :=
  ∀ place ∈ labelPlaces c qubits, place.x.isFinite ∧ place.y.isFinite

theorem placeable_of_within {k : Nat} (hk : k ≤ 900) {qubits : List QubitId}
    (h : ∀ q ∈ qubits, (c.coordsOf q).x.Within k ∧ (c.coordsOf q).y.Within k) :
    Placeable c qubits := by
  intro place hplace
  rcases List.mem_append.1 hplace with hplace | hplace
  · obtain ⟨q, hq, rfl⟩ := List.mem_map.1 hplace
    exact ⟨(h q hq).1.1, (h q hq).2.1⟩
  · rw [List.mem_singleton.1 hplace]
    constructor
    all_goals
      refine finite_middle hk fun x hx => ?_
      rw [List.map_map] at hx
      obtain ⟨q, hq, rfl⟩ := List.mem_map.1 hx
    · exact (h q hq).1
    · exact (h q hq).2

/-- Qubits at places that middles can be taken of. -/
def Central (c : Circuit) (qubits : List QubitId) : Prop :=
  ∀ q ∈ qubits, (c.coordsOf q).x.Within 53 ∧ (c.coordsOf q).y.Within 53

theorem Central.placeable {qubits : List QubitId} (h : Central c qubits) : Placeable c qubits :=
  placeable_of_within (by decide) h

/-- Labels of times before the given one. -/
def Before (time : Nat) (labels : Std.TreeSet String) : Prop :=
  ∀ s ∈ labels, ∃ label : Label, s = label.text ∧ label.time < time

theorem Before.insert {time : Nat} {labels : Std.TreeSet String} (h : Before time labels)
    (label : Label) : Before (max time (label.time + 1)) (labels.insert label.text) := by
  intro s hs
  rcases Std.TreeSet.mem_insert.1 hs with heq | hs
  · exact ⟨label, (Std.LawfulEqCmp.eq_of_compare heq).symm,
      Nat.lt_of_lt_of_le (Nat.lt_succ_self _) (Nat.le_max_right _ _)⟩
  · obtain ⟨label', heq, hlt⟩ := h s hs
    exact ⟨label', heq, Nat.lt_of_lt_of_le hlt (Nat.le_max_left _ _)⟩

/-- A fresh label is at one of its places. -/
theorem freshLabel_place (used : Std.TreeSet String) (qubits : List QubitId) (time : Nat) :
    ∃ place ∈ labelPlaces c qubits,
      place.text = (freshLabel used (labelPlaces c qubits) time).place := by
  have hne : (labelPlaces c qubits).map Point.text ≠ [] := by simp [labelPlaces]
  exact List.mem_map.1 (firstFree_place used hne (used.size + 1) time)

theorem freshLabel_spec {qubits : List QubitId} (h : Placeable c qubits) {used : Std.TreeSet String}
    {limit : Nat} (hused : Before limit used) {time : Nat} (htime : time ≤ limit) :
    IsPlace (freshLabel used (labelPlaces c qubits) time).place ∧
      (freshLabel used (labelPlaces c qubits) time).time ≤ limit := by
  have hne : (labelPlaces c qubits).map Point.text ≠ [] := by simp [labelPlaces]
  constructor
  · obtain ⟨place, hmem, heq⟩ := freshLabel_place used qubits time
    obtain ⟨hx, hy⟩ := h place hmem
    exact ⟨place, hx, hy, heq.symm⟩
  · refine firstFree_time_le hne (fun place _ => ?_) _ htime
    refine Bool.eq_false_iff.2 fun hcontains => ?_
    obtain ⟨label, heq, hlt⟩ := hused _ (Std.TreeSet.contains_iff_mem.1 hcontains)
    exact absurd (time_eq_of_text heq) (Nat.ne_of_gt hlt)

/-- Every detector that is written is labelled with a place. -/
theorem exists_place {c : Circuit} {p : Pending} {label : Label} {offsets : List Int}
    (h : .detector label offsets ∈ (p.writeDetectors c).1) :
    ∃ place : Point, label.place = place.text := by
  have hall {time : Nat} {p : Pending} {ds : List Detector}
      (h : .detector label offsets ∈ (p.labelDetectors c time ds).1) :
      ∃ place : Point, label.place = place.text := by
    induction ds generalizing p with
    | nil => cases h
    | cons d ds ih =>
        rcases List.mem_cons.1 h with h | h
        · cases h
          obtain ⟨place, -, heq⟩ := freshLabel_place (c := c) p.labels d.qubits time
          exact ⟨place, heq.symm⟩
        · exact ih h
  exact hall h

/-- What labelling has used up after `i` labels. -/
structure Pending.Timed (i : Nat) (p : Pending) : Prop where
  labels : Before p.time p.labels
  time : p.time ≤ i

/-- A line that is labelled with a place, at one of the first `bound` times. -/
def Line.Labelled (bound : Nat) : Line → Prop
  | .detector label _ => IsPlace label.place ∧ label.time < bound
  | _ => True

namespace Pending

variable {bound i : Nat} {p : Pending}

theorem Timed.congr {q : Pending} (h : Timed i p) (hlabels : q.labels = p.labels)
    (htime : q.time = p.time) : Timed i q :=
  ⟨by rw [hlabels, htime]; exact h.labels, htime ▸ h.time⟩

/-- One more label takes at most one more time. -/
theorem Timed.labelDetector (h : Timed i p) (hi : i < bound) {time : Nat} (htime : time ≤ p.time)
    {d : Detector} (hd : Placeable c d.qubits) :
    (p.labelDetector c time d).1.Labelled bound ∧ Timed (i + 1) (p.labelDetector c time d).2 ∧
      p.time ≤ (p.labelDetector c time d).2.time := by
  obtain ⟨hplace, hfresh⟩ := freshLabel_spec hd h.labels htime
  have hbefore := h.time
  refine ⟨⟨hplace, by omega⟩, ⟨h.labels.insert _, ?_⟩, Nat.le_max_left _ _⟩
  exact Nat.max_le.2 ⟨by omega, by omega⟩

theorem Timed.labelDetectors {ds : List Detector} (h : Timed i p) (hi : i + ds.length ≤ bound)
    {time : Nat} (htime : time ≤ p.time) (hds : ∀ d ∈ ds, Placeable c d.qubits) :
    (∀ l ∈ (p.labelDetectors c time ds).1, l.Labelled bound) ∧
      Timed (i + ds.length) (p.labelDetectors c time ds).2 := by
  induction ds generalizing p i with
  | nil => exact ⟨fun l hl => absurd hl List.not_mem_nil, h⟩
  | cons d rest ih =>
      rw [List.length_cons] at hi ⊢
      obtain ⟨hlabelled, hnext, hlater⟩ := h.labelDetector (show i < bound by omega) htime
        (hds d List.mem_cons_self)
      obtain ⟨hall, hlast⟩ := ih hnext (by omega) (htime.trans hlater) fun d hd =>
        hds d (List.mem_cons_of_mem _ hd)
      refine ⟨List.forall_mem_cons.2 ⟨hlabelled, hall⟩, ?_⟩
      rwa [← Nat.add_assoc, Nat.add_right_comm]

theorem Timed.writeDetectors (h : Timed i p) (hi : i + p.detectors.length ≤ bound)
    (hds : ∀ d ∈ p.detectors, Placeable c d.qubits) :
    (∀ l ∈ (p.writeDetectors c).1, l.Labelled bound) ∧ ∃ j,
      Timed j (p.writeDetectors c).2 ∧
        j + (p.writeDetectors c).2.detectors.length ≤ bound ∧
          ∀ d ∈ (p.writeDetectors c).2.detectors, Placeable c d.qubits := by
  let ready := p.detectors.takeWhile fun d => p.isWritten d.offsets
  have hready : ready.length ≤ p.detectors.length := (List.takeWhile_prefix _).length_le
  have hstart : Timed i { p with detectors := p.detectors.drop ready.length } :=
    h.congr rfl rfl
  obtain ⟨hall, hlast⟩ := hstart.labelDetectors (show i + ready.length ≤ bound by omega)
    (Nat.le_refl _) fun d hd => hds d ((List.takeWhile_sublist _).subset hd)
  have hrest : (p.writeDetectors c).2.detectors = p.detectors.drop ready.length :=
    (labelDetectors_keeps c p.time _ ready).2.1
  refine ⟨hall, i + ready.length, hlast, ?_, ?_⟩
  · rw [hrest, List.length_drop]
    omega
  · rw [hrest]
    exact fun d hd => hds d ((List.drop_sublist _ _).subset hd)

end Pending

/-- Layer by layer, every detector is labelled. -/
theorem labelled_bodyLines {d : Detail} {layers : List Layer} {bound i : Nat} {p : Pending}
    (h : p.Timed i) (hi : i + p.detectors.length ≤ bound)
    (hds : ∀ d ∈ p.detectors, Placeable c d.qubits) :
    ∀ l ∈ bodyLines c d p layers, l.Labelled bound := by
  induction layers generalizing p i with
  | nil => exact fun l hl => absurd hl List.not_mem_nil
  | cons layer rest ih =>
      have hstart : (p.advance layer).Timed i := h.congr rfl rfl
      obtain ⟨hall, j, htimed, hj, hplaceable⟩ := hstart.writeDetectors (c := c) hi hds
      let behind := ((p.advance layer).writeDetectors c).2.writeObservables
      have hbehind : behind.2.Timed j := htimed.congr rfl rfl
      intro l hl
      rw [bodyLines_cons] at hl
      rcases List.mem_append.1 hl with hl | hl
      · have hlayer := ofLayer_layerLines hl
        cases l with
        | detector => exact hlayer.elim
        | _ => trivial
      rcases List.mem_append.1 hl with hl | hl
      · exact hall l hl
      rcases List.mem_append.1 hl with hl | hl
      · obtain ⟨e, -, rfl⟩ := List.mem_map.1 hl
        trivial
      rcases List.mem_cons.1 hl with rfl | hl
      · trivial
      · exact ih hbehind hj hplaceable l hl

/-- Every line that is written for a circuit with at most `bound` detectors is labelled. -/
theorem labelled_lines {d : Detail} {bound : Nat}
    (hbound : (c.detectors .output).detectors.length ≤ bound)
    (hds : ∀ d ∈ (c.detectors .output).detectors, Placeable c d.qubits) :
    ∀ l ∈ lines c d, l.Labelled bound := by
  intro l hl
  rcases mem_lines hl with hmem | hmem
  · obtain ⟨-, sheet, -, rfl⟩ | ⟨q, -, rfl⟩ := headerLines_cases hmem <;> trivial
  · have hstart : (Pending.ofCircuit c).Timed 0 :=
      ⟨fun s hs => absurd hs Std.TreeSet.not_mem_emptyc, Nat.le_refl _⟩
    exact labelled_bodyLines hstart
      ((Nat.zero_add _).le.trans hbound) hds l hmem

end Emission

end StimOverlay
