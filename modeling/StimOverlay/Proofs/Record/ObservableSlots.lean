import StimOverlay.Proofs.Record.BackwardReferences
import StimOverlay.Proofs.Record.OutputRecord

/-! Slots of observables. The index of an observable is rounded to single precision, and of the result
only the last 32 binary digits are kept. What is left of it is the slot under which the observable is
collected. Indices of which nothing is lost in this way are kept apart. -/

namespace StimOverlay

open Build Numeric

namespace Build

/-- An accepted observable whose index falls into the given slot. -/
def AcceptedInSlot (acts : List Act) (slot n : Nat) (i : Instruction) : Prop :=
  Executed .standard acts n i ∧ i.name = observableName ∧ Accepted n i ∧
    ∃ x, observableIndex? i = some x ∧ observableSlot x = slot

/-- Behind `n` measurements the instruction names the measurement that is numbered by the offset `o` from
the end of the record of the given order. -/
def Names (text : String) (order : RecordOrder) (n : Nat) (i : Instruction) (o : Int) : Prop :=
  ∃ k : Nat, .record (-k) ∈ i.targets ∧ ∃ site m, (tapeOf text).record[n - k]? = some site ∧
    Circuit.measurementAt order (parse text).circuit.layers site = some m ∧
      o = (m.number : Int) - (parse text).circuit.measurements

variable {text : String} {order : RecordOrder} {n : Nat} {i : Instruction} {numbers : List Nat}

/-- What is collected for an instruction is what it names. -/
theorem exists_site_iff (h : recordNumbers? n i.targets = some numbers) {o : Int} :
    (∃ site ∈ (tapeOf text).sitesOf numbers, ∃ m,
      Circuit.measurementAt order (parse text).circuit.layers site = some m ∧
        o = (m.number : Int) - (parse text).circuit.measurements) ↔ Names text order n i o := by
  obtain ⟨hall, hmem⟩ := recordNumbers?_eq_some h
  constructor
  · rintro ⟨site, hsite, m, hm, ho⟩
    obtain ⟨x, hx, hrecord⟩ := List.mem_filterMap.1 hsite
    obtain ⟨k, hk, -, -, rfl⟩ := (hmem x).1 hx
    exact ⟨k, hk, site, m, hrecord, hm, ho⟩
  · rintro ⟨k, hk, site, m, hrecord, hm, ho⟩
    obtain ⟨k', hpos, hle, heq⟩ := hall _ hk
    have hsame : -(k : Int) = -(k' : Int) := Target.record.inj heq
    have hnumber : n - k ∈ numbers := (hmem _).2 ⟨k, hk, by omega, by omega, rfl⟩
    exact ⟨site, List.mem_filterMap.2 ⟨_, hnumber, hrecord⟩, m, hm, ho⟩

/-- In the order of placement an instruction names what its targets denote. -/
theorem names_placement_iff
    (h : Executed .standard (course .standard (Source.normalize text.toList)) n i)
    (haccepted : Accepted n i) {o : Int} :
    Names text .placement n i o ↔ Denotes (parse text).circuit.measurements n i o := by
  obtain ⟨numbers, hread⟩ := recordNumbers?_isSome haccepted
  rw [← exists_site_iff hread, ← exists_number_iff hread]
  exact exists_measurementAt_iff (numbers_lt_of_executed h hread)
    (P := fun x => o = (x : Int) - (parse text).circuit.measurements)

/-- The moves of observables in a slot, as the accepted observables in that slot. -/
theorem exists_inSlot_iff {slot : Nat} {P : List Nat → Prop} {Q : Nat → Instruction → Prop}
    (h : ∀ n i numbers, Executed .standard (course .standard (Source.normalize text.toList)) n i →
      recordNumbers? n i.targets = some numbers → (P numbers ↔ Q n i)) :
    (∃ e ∈ (movesOf text).filterMap Move.observable?, observableSlot e.1 = slot ∧ P e.2) ↔
      ∃ n i, AcceptedInSlot (course .standard (Source.normalize text.toList)) slot n i ∧ Q n i := by
  constructor
  · rintro ⟨e, he, hslot, hP⟩
    obtain ⟨n, i, hexecuted, hname, hx, hread⟩ := mem_observables_iff.1 he
    exact ⟨n, i, ⟨hexecuted, hname, (recordNumbers?_eq_some hread).1, e.1, hx, hslot⟩,
      (h n i e.2 hexecuted hread).1 hP⟩
  · rintro ⟨n, i, ⟨hexecuted, hname, haccepted, x, hx, hslot⟩, hQ⟩
    obtain ⟨numbers, hread⟩ := recordNumbers?_isSome haccepted
    exact ⟨(x, numbers), mem_observables_iff.2 ⟨n, i, hexecuted, hname, hx, hread⟩, hslot,
      (h n i numbers hexecuted hread).2 hQ⟩

/-- What is collected for an instruction is empty only if the instruction has no targets. -/
theorem sitesOf_ne_nil_iff
    (h : Executed .standard (course .standard (Source.normalize text.toList)) n i)
    (hread : recordNumbers? n i.targets = some numbers) :
    (tapeOf text).sitesOf numbers ≠ [] ↔ i.targets ≠ [] := by
  rw [Ne, sitesOf_eq_nil_iff (numbers_lt_of_executed h hread), numbers_eq_nil_iff hread]

/-- A slot is listed if an accepted observable in it has targets, with what the accepted observables in
it name. -/
theorem mem_observables_iff_slot (text : String) (order : RecordOrder) {slot : Nat} {os : List Int} :
    (slot, os) ∈ ((parse text).circuit.detectors order).observables ↔
      (∃ n i, AcceptedInSlot (course .standard (Source.normalize text.toList)) slot n i ∧
        i.targets ≠ []) ∧ os.Pairwise (· > ·) ∧
      ∀ o, o ∈ os ↔ ∃ n i,
        AcceptedInSlot (course .standard (Source.normalize text.toList)) slot n i ∧
          Names text order n i o := by
  rw [mem_observables_parse (separated_of_order text order), length_record_of_order]
  refine and_congr ?_ (and_congr_right fun _ => forall_congr' fun o => iff_congr Iff.rfl ?_)
  · exact exists_inSlot_iff (P := fun numbers => (tapeOf text).sitesOf numbers ≠ [])
      fun _ _ _ => sitesOf_ne_nil_iff
  · exact exists_inSlot_iff (P := fun numbers => ∃ site ∈ (tapeOf text).sitesOf numbers, ∃ m,
      Circuit.measurementAt order (parse text).circuit.layers site = some m ∧
        o = (m.number : Int) - (parse text).circuit.measurements)
      fun n i numbers _ hread => exists_site_iff hread

/-- A slot that an accepted observable with targets falls into is listed. -/
theorem exists_entry (order : RecordOrder) {slot : Nat} (h : ∃ n i,
      AcceptedInSlot (course .standard (Source.normalize text.toList)) slot n i ∧ i.targets ≠ []) :
    ∃ os, (slot, os) ∈ ((parse text).circuit.detectors order).observables := by
  let moves := (movesOf text).filterMap Move.observable?
  let found := (moves.filter fun e => observableSlot e.1 = slot).flatMap fun e =>
    ((tapeOf text).sitesOf e.2).filterMap
      (Circuit.measurementAt order (parse text).circuit.layers)
  let total := (Circuit.recordIn order 0 (parse text).circuit.layers).length
  obtain ⟨hpairwise, hmem⟩ := eq_offsets_iff.1 (rfl : Circuit.offsets total found = _)
  refine ⟨Circuit.offsets total found, (mem_observables_parse (separated_of_order text order)).2
    ⟨?_, hpairwise, fun o => (hmem o).trans ?_⟩⟩
  · refine (exists_inSlot_iff (P := fun numbers => (tapeOf text).sitesOf numbers ≠ []) ?_).2 h
    exact fun _ _ _ => sitesOf_ne_nil_iff
  · constructor
    · rintro ⟨m, hm, ho⟩
      obtain ⟨e, he, hm⟩ := List.mem_flatMap.1 hm
      obtain ⟨he, hslot⟩ := List.mem_filter.1 he
      obtain ⟨site, hsite, hat⟩ := List.mem_filterMap.1 hm
      exact ⟨e, he, of_decide_eq_true hslot, site, hsite, m, hat, ho⟩
    · rintro ⟨e, he, hslot, site, hsite, m, hat, ho⟩
      exact ⟨m, List.mem_flatMap.2 ⟨e, List.mem_filter.2 ⟨he, decide_eq_true hslot⟩,
        List.mem_filterMap.2 ⟨site, hsite, hat⟩⟩, ho⟩

/-- An index that passes through single precision and through 32 binary digits without a loss. -/
def KeptIndex (v : Nat) : Prop := Format.binary32.Holds v ∧ v < indexModulus

/-- Where no index is changed, slots are indices. -/
theorem acceptedInSlot_iff {acts : List Act}
    (h : ∀ n i x, Executed .standard acts n i → i.name = observableName →
      observableIndex? i = some x → ∃ v : Nat, x.toRat = v ∧ KeptIndex v)
    {v : Nat} : AcceptedInSlot acts v n i ↔ AcceptedObservable acts v n i := by
  refine and_congr_right fun hexecuted => and_congr_right fun hname => and_congr_right fun _ =>
    exists_congr fun x => and_congr_right fun hx => ?_
  obtain ⟨w, hw, hheld, hlt⟩ := h n i x hexecuted hname hx
  rw [observableSlot_of_holds (observableIndex?_nat hx).1 hw hheld hlt, hw]
  exact_mod_cast Iff.rfl

/-- Observables of different indices are collected apart if no index in the text is changed on its way:
each index has an entry of its own, which holds exactly what the accepted observables of that index
name. -/
theorem indices_kept_apart (text : String) (order : RecordOrder)
    (h : ∀ n i x, Executed .standard (course .standard (Source.normalize text.toList)) n i →
      i.name = observableName → observableIndex? i = some x → ∃ v : Nat, x.toRat = v ∧ KeptIndex v)
    {v w n n' : Nat} {i i' : Instruction} (hne : v ≠ w)
    (hv : AcceptedObservable (course .standard (Source.normalize text.toList)) v n i)
    (hw : AcceptedObservable (course .standard (Source.normalize text.toList)) w n' i')
    (htargets : i.targets ≠ []) (htargets' : i'.targets ≠ []) :
    let acts := course .standard (Source.normalize text.toList)
    let collected := ((parse text).circuit.detectors order).observables
    (collected.map (·.1)).Nodup ∧
      ∃ os os', [(v, os), (w, os')].Subperm collected ∧
        (∀ o, o ∈ os ↔ ∃ n i, AcceptedObservable acts v n i ∧ Names text order n i o) ∧
        ∀ o, o ∈ os' ↔ ∃ n i, AcceptedObservable acts w n i ∧ Names text order n i o := by
  intro acts collected
  have hslot {v n : Nat} {i : Instruction} : AcceptedInSlot acts v n i ↔ AcceptedObservable acts v n i :=
    acceptedInSlot_iff h
  obtain ⟨os, hos⟩ := exists_entry order ⟨n, i, hslot.2 hv, htargets⟩
  obtain ⟨os', hos'⟩ := exists_entry order ⟨n', i', hslot.2 hw, htargets'⟩
  refine ⟨?_, os, os', ?_, fun o => ?_, fun o => ?_⟩
  · exact List.pairwise_map.2 (pairwise_observables.imp fun hlt => Nat.ne_of_lt hlt)
  · have hnodup : [(v, os), (w, os')].Nodup :=
      List.nodup_cons.2 ⟨fun hmem => hne (congrArg Prod.fst (List.mem_singleton.1 hmem)),
        List.nodup_singleton _⟩
    exact hnodup.subperm (List.cons_subset.2 ⟨hos, List.cons_subset.2 ⟨hos', List.nil_subset _⟩⟩)
  · exact (((mem_observables_iff_slot text order).1 hos).2.2 o).trans
      (exists₂_congr fun _ _ => and_congr_left' hslot)
  · exact (((mem_observables_iff_slot text order).1 hos').2.2 o).trans
      (exists₂_congr fun _ _ => and_congr_left' hslot)

/-- Two indices that differ in the last digit that single precision has for them. -/
theorem neighbours_kept_apart :
    let text := "M 0 1\nOBSERVABLE_INCLUDE(16777216) rec[-1]\nOBSERVABLE_INCLUDE(16777218) rec[-2]"
    let collected := ((parse text).circuit.detectors .placement).observables
    ∃ os os', [(2 ^ 24, os), (2 ^ 24 + 2, os')].Subperm collected ∧ -1 ∈ os ∧ -2 ∈ os' := by
  intro text collected
  have hindices : ∀ a ∈ course .standard (Source.normalize text.toList), ∀ e ∈ a.instruction?,
      ∀ x ∈ observableIndex? e.2, e.2.name = observableName →
        x.toRat = (2 ^ 24 : Nat) ∨ x.toRat = (2 ^ 24 + 2 : Nat) := by
    decide +kernel
  have hlow : KeptIndex (2 ^ 24) := ⟨⟨2 ^ 23, 1, by decide, by decide, rfl⟩, by decide⟩
  have hhigh : KeptIndex (2 ^ 24 + 2) := ⟨⟨2 ^ 23 + 1, 1, by decide, by decide, rfl⟩, by decide⟩
  have hfirst : AcceptedObservable (course .standard (Source.normalize text.toList)) (2 ^ 24) 2
      ⟨"OBSERVABLE_INCLUDE", "", [.ofNat .binary64 16777216], [.record (-1)]⟩ := by
    refine ⟨executed_of_getElem? 1 2 (by decide +kernel) (by decide +kernel), rfl, ?_,
      .ofNat .binary64 16777216, by decide +kernel, by decide +kernel⟩
    exact List.forall_mem_singleton.2 ⟨1, by decide, by decide, rfl⟩
  have hsecond : AcceptedObservable (course .standard (Source.normalize text.toList)) (2 ^ 24 + 2) 2
      ⟨"OBSERVABLE_INCLUDE", "", [.ofNat .binary64 16777218], [.record (-2)]⟩ := by
    refine ⟨executed_of_getElem? 2 3 (by decide +kernel) (by decide +kernel), rfl, ?_,
      .ofNat .binary64 16777218, by decide +kernel, by decide +kernel⟩
    exact List.forall_mem_singleton.2 ⟨2, by decide, by decide, rfl⟩
  have htotal : (parse text).circuit.measurements = 2 := by decide +kernel
  obtain ⟨-, os, os', hentries, hmem, hmem'⟩ := indices_kept_apart text .placement (by
    rintro n i x ⟨done, a, rest, line, hsplit, hi, -⟩ hname hx
    have ha : a ∈ course .standard (Source.normalize text.toList) := by
      rw [hsplit]
      exact List.mem_append_right _ List.mem_cons_self
    rcases hindices a ha _ hi x hx hname with heq | heq
    · exact ⟨_, heq, hlow⟩
    · exact ⟨_, heq, hhigh⟩) (by decide) hfirst hsecond (List.cons_ne_nil _ _) (List.cons_ne_nil _ _)
  refine ⟨os, os', hentries, (hmem _).2 ⟨2, _, hfirst, ?_⟩, (hmem' _).2 ⟨2, _, hsecond, ?_⟩⟩
  · rw [names_placement_iff hfirst.1 hfirst.2.2.1, htotal]
    exact ⟨1, List.mem_singleton_self _, rfl⟩
  · rw [names_placement_iff hsecond.1 hsecond.2.2.1, htotal]
    exact ⟨2, List.mem_singleton_self _, rfl⟩

end Build

end StimOverlay
