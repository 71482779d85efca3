import StimOverlay.Proofs.Record.MarkReferences

/-! Collected detectors. Every detector and every observable that a run accepted is collected with exactly
the measurements that it named, each as its offset from the end of the record; detectors are listed once
each. -/

namespace StimOverlay

open Build Numeric

namespace Circuit

theorem filter_flatMap_zipIdx (l : List α) (g : α × Nat → List β) (key : β → Nat) (k : Nat)
    (h : ∀ e ∈ l.zipIdx k, ∀ b ∈ g e, key b = e.2) (d : Nat) :
    ((l.zipIdx k).flatMap g).filter (key · == k + d) =
      (l[d]?.map fun a => g (a, k + d)).getD [] := by
  induction l generalizing k d with
  | nil => rfl
  | cons a rest ih =>
      rw [List.zipIdx_cons] at h ⊢
      rw [List.flatMap_cons, List.filter_append]
      have hrest := ih (k + 1) (fun e he => h e (List.mem_cons_of_mem _ he))
      have hfirst : ∀ b ∈ g (a, k), key b = k := h (a, k) List.mem_cons_self
      cases d with
      | zero =>
          have hall : (g (a, k)).filter (key · == k + 0) = g (a, k) := by
            rw [List.filter_eq_self]
            intro b hb
            simp [hfirst b hb]
          have hnone : ((rest.zipIdx (k + 1)).flatMap g).filter (key · == k + 0) = [] := by
            rw [List.filter_eq_nil_iff]
            intro b hb
            obtain ⟨e, he, hbe⟩ := List.mem_flatMap.1 hb
            have hkey := h e (List.mem_cons_of_mem _ he) b hbe
            have hle := List.le_snd_of_mem_zipIdx he
            simp only [beq_iff_eq]
            omega
          rw [hall, hnone, List.append_nil]
          rfl
      | succ d =>
          have hnone : (g (a, k)).filter (key · == k + (d + 1)) = [] := by
            rw [List.filter_eq_nil_iff]
            intro b hb
            simp [hfirst b hb]
          have hshift : k + (d + 1) = k + 1 + d := by omega
          rw [hnone, List.nil_append, List.getElem?_cons_succ, hshift]
          exact hrest d

variable (order : RecordOrder) (layers : List Layer)

/-- The measurements at some sites, layer by layer. -/
def foundAt (sites : List Site) : List Measured :=
  (byLayer layers.length (·.layer) sites).filterMap (measurementAt order layers)

/-- What references to sites gather. -/
theorem flatMap_referenceTo (index : Binary32) (sites : List Site) :
    ((byLayer layers.length (·.1) (sites.map (Tape.referenceTo order layers index))).map
      (·.2)).flatMap (·.measured.toList) = foundAt order layers sites := by
  rw [← map_byLayer layers.length (·.layer) (·.1) (Tape.referenceTo order layers index)
    fun _ => rfl, List.map_map, List.flatMap_map, foundAt, List.filterMap_eq_flatMap_toList]
  rfl

/-- What detectors refer to, each under its number in the list. -/
def numberedReferences (detectors : List (List Site)) : List (Nat × Reference) :=
  detectors.zipIdx.flatMap fun e => e.1.map (Tape.referenceTo order layers (.ofNat .binary32 e.2))

section numbered

variable {order layers} {detectors : List (List Site)}

theorem byLayer_numberedReferences_perm
    (hinside : ∀ sites ∈ detectors, ∀ site ∈ sites, site.layer < layers.length) :
    (byLayer layers.length (·.1) (numberedReferences order layers detectors)).Perm
      (numberedReferences order layers detectors) := by
  refine byLayer_perm _ fun x hx => ?_
  obtain ⟨e, he, hx⟩ := List.mem_flatMap.1 hx
  obtain ⟨site, hsite, rfl⟩ := List.mem_map.1 hx
  exact hinside e.1 (List.fst_mem_of_mem_zipIdx he) site hsite

/-- Under a number stands what the detector of this number refers to. -/
theorem filter_numberedReferences
    (hslots : ∀ d < detectors.length, (Binary.ofNat .binary32 d).nearestNat maxSlot = d)
    (slot : Nat) :
    (numberedReferences order layers detectors).filter (·.2.slot == slot) =
      (detectors[slot]?.map fun sites =>
        sites.map (Tape.referenceTo order layers (.ofNat .binary32 slot))).getD [] := by
  have h := filter_flatMap_zipIdx detectors (fun e =>
    e.1.map (Tape.referenceTo order layers (.ofNat .binary32 e.2))) (·.2.slot) 0
    (fun e he x hx => by
      obtain ⟨site, -, rfl⟩ := List.mem_map.1 hx
      have hlt := List.snd_lt_of_mem_zipIdx he
      exact hslots e.2 (by omega)) slot
  rw [Nat.zero_add] at h
  exact h

theorem gathered_numberedReferences
    (hslots : ∀ d < detectors.length, (Binary.ofNat .binary32 d).nearestNat maxSlot = d)
    (slot : Nat) :
    gathered ((byLayer layers.length (·.1) (numberedReferences order layers detectors)).map (·.2))
      slot = (detectors[slot]?.map (foundAt order layers)).getD [] := by
  have hswap : gathered ((byLayer layers.length (·.1)
        (numberedReferences order layers detectors)).map (·.2)) slot =
      ((byLayer layers.length (·.1) ((numberedReferences order layers detectors).filter
        (·.2.slot == slot))).map (·.2)).flatMap (·.measured.toList) := by
    rw [gathered, List.filter_map, ← filter_byLayer]
    rfl
  rw [hswap, filter_numberedReferences hslots]
  cases detectors[slot]? with
  | none => simp [byLayer]
  | some sites => exact flatMap_referenceTo order layers _ sites

/-- A number is referred to when the detector of this number names a site. -/
theorem exists_numberedReference_iff
    (hslots : ∀ d < detectors.length, (Binary.ofNat .binary32 d).nearestNat maxSlot = d)
    (hinside : ∀ sites ∈ detectors, ∀ site ∈ sites, site.layer < layers.length) (slot : Nat) :
    (∃ r ∈ (byLayer layers.length (·.1) (numberedReferences order layers detectors)).map (·.2),
      r.slot = slot) ↔ ∃ sites, detectors[slot]? = some sites ∧ sites.isEmpty = false := by
  have hperm : (byLayer layers.length (·.1) (numberedReferences order layers detectors)).Perm
      (numberedReferences order layers detectors) := byLayer_numberedReferences_perm hinside
  constructor
  · rintro ⟨r, hr, hslot⟩
    obtain ⟨x, hx, rfl⟩ := List.mem_map.1 hr
    have hx' : x ∈ (numberedReferences order layers detectors).filter (·.2.slot == slot) :=
      List.mem_filter.2 ⟨hperm.mem_iff.1 hx, by simpa using hslot⟩
    rw [filter_numberedReferences hslots] at hx'
    cases hsites : detectors[slot]? with
    | none =>
        rw [hsites] at hx'
        exact absurd hx' List.not_mem_nil
    | some sites =>
        rw [hsites] at hx'
        obtain ⟨site, hsite, -⟩ := List.mem_map.1 hx'
        exact ⟨sites, rfl, by simpa using List.ne_nil_of_mem hsite⟩
  · rintro ⟨sites, hsites, hne⟩
    obtain ⟨site, rest, rfl⟩ := List.exists_cons_of_ne_nil (by simpa using hne)
    have hx : Tape.referenceTo order layers (.ofNat .binary32 slot) site ∈
        (numberedReferences order layers detectors).filter (·.2.slot == slot) := by
      rw [filter_numberedReferences hslots, hsites]
      exact List.mem_cons_self
    obtain ⟨hx, hslot⟩ := List.mem_filter.1 hx
    exact ⟨_, List.mem_map_of_mem (hperm.mem_iff.2 hx), by simpa using hslot⟩

/-- Slots numbered one after another hold what the detectors of these numbers name. -/
theorem bySlot_of_numbered
    (hslots : ∀ d < detectors.length, (Binary.ofNat .binary32 d).nearestNat maxSlot = d)
    (hinside : ∀ sites ∈ detectors, ∀ site ∈ sites, site.layer < layers.length) :
    bySlot ((byLayer layers.length (·.1) (numberedReferences order layers detectors)).map (·.2)) =
      detectors.zipIdx.filterMap fun e =>
        if e.1.isEmpty then none else some (e.2, foundAt order layers e.1) := by
  apply bySlot_eq
  · rw [List.pairwise_filterMap]
    refine (pairwise_zipIdx detectors).imp fun {a b} hab x hx y hy => ?_
    split at hx
    · cases hx
    · split at hy
      · cases hy
      · cases hx
        cases hy
        exact hab
  · rintro ⟨slot, found⟩
    rw [exists_numberedReference_iff hslots hinside, gathered_numberedReferences hslots,
      List.mem_filterMap]
    constructor
    · rintro ⟨⟨sites, d⟩, he, hsome⟩
      split at hsome
      · cases hsome
      · rename_i hne
        cases hsome
        have hsites := List.mem_zipIdx_iff_getElem?.1 he
        exact ⟨⟨sites, hsites, by simpa using hne⟩, by rw [hsites]; rfl⟩
    · rintro ⟨⟨sites, hsites, hne⟩, hfound⟩
      refine ⟨(sites, slot), List.mem_zipIdx_iff_getElem?.2 hsites, ?_⟩
      rw [hsites] at hfound
      simp only [Option.map_some, Option.getD_some] at hfound
      rw [hne, hfound]
      rfl

end numbered

/-- A detector on the measurements at some sites. -/
def detectorAt (sites : List Site) : Detector where
  offsets := offsets (recordIn order 0 layers).length (foundAt order layers sites)
  qubits := (foundAt order layers sites).flatMap (·.qubits)

theorem foundAt_eq_nil_iff {sites : List Site}
    (hinside : ∀ site ∈ sites, site.layer < layers.length)
    (hfound : ∀ site ∈ sites, (measurementAt order layers site).isSome) :
    foundAt order layers sites = [] ↔ sites = [] := by
  have hperm := byLayer_perm Site.layer hinside
  constructor
  · intro hnil
    rw [foundAt, List.filterMap_eq_nil_iff] at hnil
    rw [List.eq_nil_iff_forall_not_mem]
    intro site hsite
    have hnone := hnil site (hperm.mem_iff.2 hsite)
    have hsome := hfound site hsite
    rw [hnone] at hsome
    cases hsome
  · rintro rfl
    simp [foundAt, byLayer]

/-- The detectors that name a measurement, listed once by their offsets. -/
theorem distinctDetectors_of_numbered {detectors : List (List Site)}
    (hinside : ∀ sites ∈ detectors, ∀ site ∈ sites, site.layer < layers.length)
    (hfound : ∀ sites ∈ detectors, ∀ site ∈ sites, (measurementAt order layers site).isSome) :
    distinctDetectors (recordIn order 0 layers).length (detectors.zipIdx.filterMap fun e =>
        if e.1.isEmpty then none else some (e.2, foundAt order layers e.1)) =
      ((detectors.filter (!·.isEmpty)).map (detectorAt order layers)).eraseDupsBy
        fun a b => a.offsets == b.offsets := by
  rw [distinctDetectors]
  congr 1
  have hfst : detectors = detectors.zipIdx.map (·.1) := (List.zipIdx_map_fst 0 detectors).symm
  conv_rhs => rw [hfst]
  rw [List.filterMap_filterMap, List.filter_map, List.map_map, ← List.filterMap_eq_map,
    List.filterMap_filter]
  refine List.filterMap_congr fun e he => ?_
  have hmem := List.fst_mem_of_mem_zipIdx he
  have hnil := foundAt_eq_nil_iff order layers (hinside e.1 hmem) (hfound e.1 hmem)
  cases hsites : e.1.isEmpty with
  | true => simp [hsites]
  | false =>
      have hne : foundAt order layers e.1 ≠ [] := by
        rw [Ne, hnil]
        simpa using hsites
      simp [hsites, hne, detectorAt]

theorem mem_gathered {refs : List Reference} {slot : Nat} {m : Measured} :
    m ∈ gathered refs slot ↔ ∃ r ∈ refs, r.slot = slot ∧ r.measured = some m := by
  simp only [gathered, List.mem_flatMap, List.mem_filter, Option.mem_toList, beq_iff_eq, and_assoc]

theorem mem_offsets {total : Nat} {found : List Measured} {o : Int} :
    o ∈ offsets total found ↔ ∃ m ∈ found, o = (m.number : Int) - total := by
  rw [offsets, mem_descending, List.mem_map]
  simp only [eq_comm]

end Circuit

namespace Layer

theorem separated_of_sound {l : Layer} (h : l.Sound) (k : Nat) :
    ((stage k l.operations.toList).map (·.1.qubit)).Nodup := by
  have hpairs : (l.operations.toList.filter Operation.isMeasurement).Pairwise fun a b =>
      ∀ q, a.targets.head? = some q → b.targets.head? ≠ some q := by
    have hcompatible := h.compatible.filter Operation.isMeasurement
    rw [List.pairwise_filter] at hcompatible ⊢
    refine hcompatible.imp fun {a b} hab ha hb q hqa hqb => ?_
    have hshared : ∃ q, q ∈ a.targets ∧ q ∈ b.targets :=
      ⟨q, List.mem_of_head? hqa, List.mem_of_head? hqb⟩
    have hnot := (hab ha hb hshared).2.2.2.2
    rw [ha] at hnot
    cases hnot
  rw [stage, List.map_filterMap, List.Nodup, List.pairwise_filterMap]
  refine hpairs.imp fun {a b} hab x hx y hy hxy => ?_
  simp only [Option.map_map, Option.map_eq_some_iff, Function.comp] at hx hy
  obtain ⟨q, hq, rfl⟩ := hx
  obtain ⟨q', hq', rfl⟩ := hy
  exact hab q hq (hxy ▸ hq')

end Layer

namespace Build

variable (text : String)

theorem sound_parse {l : Layer} (hl : l ∈ (parse text).circuit.layers) : l.bare.Sound := by
  obtain ⟨rest, hrest, -⟩ := tapeOf_toList text
  refine (layered_tapeOf text).sound l.bare ?_
  rw [hrest]
  exact List.mem_append_left _ (List.mem_map_of_mem hl)

theorem separated_parse : Separated .placement (parse text).circuit.layers :=
  fun _ hl k => Layer.separated_of_sound (sound_parse text hl) k

theorem marked_parse :
    Circuit.Marked (parse text).circuit.layers (Tape.stampsOf .standard (movesOf text)) := by
  obtain ⟨rest, hrest, hempty⟩ := tapeOf_toList text
  have hmarkers := (recorded_tapeOf text).markers
  have hlist : (tapeOf text).schedule.markers =
      (parse text).circuit.layers.map (·.markers.toList) ++ rest.map (·.markers.toList) := by
    rw [Schedule.markers, hrest, List.map_append, List.map_map]
    rfl
  constructor
  · intro k l hl
    have hk := (List.getElem?_eq_some_iff.1 hl).1
    rw [← hmarkers k, Schedule.markersAt, hlist,
      List.getElem?_append_left (by rwa [List.length_map]), List.getElem?_map, hl]
    rfl
  · intro e he
    by_contra hout
    have hat : (tapeOf text).schedule.markersAt e.1 = [] := by
      rw [Schedule.markersAt, hlist, List.getElem?_append_right (by rw [List.length_map]; omega),
        List.getElem?_map]
      cases hl : rest[e.1 - ((parse text).circuit.layers.map (·.markers.toList)).length]? with
      | none => rfl
      | some l => simp [(Layer.isEmpty_iff.1 (hempty l (List.mem_of_getElem? hl))).2.1]
    rw [hmarkers, List.map_eq_nil_iff, List.filter_eq_nil_iff] at hat
    exact hat e he (by simp)

/-- The record of a parsed circuit in the order of placement is the record of the run. -/
theorem record_parse :
    (Circuit.recordIn .placement 0 (parse text).circuit.layers).map (·.1) =
      (tapeOf text).record.toList := by
  obtain ⟨rest, hrest, hempty⟩ := tapeOf_toList text
  have hnone (k : Nat) : recordFrom k (rest.map (·.operations.toList)) = [] := by
    rw [List.eq_nil_iff_forall_not_mem]
    intro e he
    obtain ⟨-, ops, hops, he⟩ := mem_recordFrom.1 he
    rw [List.getElem?_map] at hops
    obtain ⟨l, hl, rfl⟩ := Option.map_eq_some_iff.1 hops
    obtain ⟨op, hop, -⟩ := mem_stage.1 he
    rw [(Layer.isEmpty_iff.1 (hempty l (List.mem_of_getElem? hl))).1] at hop
    exact absurd hop List.not_mem_nil
  rw [(recorded_tapeOf text).record, Schedule.operations, hrest, List.map_append,
    recordFrom_append, hnone, List.append_nil, List.map_map]
  rfl

theorem legal_movesOf : ∀ m ∈ movesOf text, m.Legal := fun _ hm => legal_of_mem_moves hm

theorem ranged_movesOf : RangedFrom 0 (movesOf text) := ranged_moves _ _

/-- The sites that the accepted detectors name, detector by detector. -/
def detectorSites : List (List Site) :=
  ((movesOf text).filterMap Move.detector?).map (tapeOf text).sitesOf

/-- The measurement with number `n` in the record is found at its site. -/
theorem measurementAt_of_record {n : Nat} {site : Site}
    (hsite : (tapeOf text).record[n]? = some site) :
    ∃ m, Circuit.measurementAt .placement (parse text).circuit.layers site = some m ∧
      m.number = n := by
  have hrecord : ((Circuit.recordIn .placement 0 (parse text).circuit.layers).map (·.1))[n]? =
      some site := by
    rw [record_parse, Array.getElem?_toList, hsite]
  rw [List.getElem?_map, Option.map_eq_some_iff] at hrecord
  obtain ⟨e, he, rfl⟩ := hrecord
  exact ⟨⟨n, e.2⟩, (Circuit.measurementAt_eq_some_iff (separated_parse text)).2 he, rfl⟩

theorem layer_lt_of_mem_sitesOf {numbers : List Nat} {site : Site}
    (hsite : site ∈ (tapeOf text).sitesOf numbers) :
    site.layer < (parse text).circuit.layers.length := by
  obtain ⟨n, -, hn⟩ := List.mem_filterMap.1 hsite
  obtain ⟨m, hm, -⟩ := measurementAt_of_record text hn
  rw [Circuit.measurementAt_eq_some_iff (separated_parse text)] at hm
  obtain ⟨-, ops, hops, -⟩ := mem_recordFrom.1 (List.mem_of_getElem? hm)
  have hlt := (List.getElem?_eq_some_iff.1 hops).1
  rwa [List.length_map, Nat.sub_zero] at hlt

/-- Every measurement that a detector or an observable names is found again. -/
def Retrieved (order : RecordOrder) : Prop :=
  ∀ site ∈ (tapeOf text).record.toList,
    (Circuit.measurementAt order (parse text).circuit.layers site).isSome

theorem retrieved_placement : Retrieved text .placement := by
  intro site hsite
  obtain ⟨n, hn⟩ := List.mem_iff_getElem?.1 hsite
  rw [Array.getElem?_toList] at hn
  obtain ⟨m, hm, -⟩ := measurementAt_of_record text hn
  rw [hm]
  rfl

theorem mem_record_of_mem_sitesOf {numbers : List Nat} {site : Site}
    (hsite : site ∈ (tapeOf text).sitesOf numbers) : site ∈ (tapeOf text).record.toList := by
  obtain ⟨n, -, hn⟩ := List.mem_filterMap.1 hsite
  exact Array.mem_toList_iff.2 (Array.mem_of_getElem? hn)

variable {text} {order : RecordOrder}

/-- The detectors of a parsed circuit are the distinct ones among those that the run accepted. -/
theorem detectors_parse (hsep : Separated order (parse text).circuit.layers)
    (hretrieved : Retrieved text order)
    (hslots : ∀ d < (detectorSites text).length,
      (Binary.ofNat .binary32 d).nearestNat maxSlot = d) :
    ((parse text).circuit.detectors order).detectors =
      ((((detectorSites text).filter (!·.isEmpty)).map
        (Circuit.detectorAt order (parse text).circuit.layers)).eraseDupsBy
          fun a b => a.offsets == b.offsets).mergeSort
            fun a b => decide (a.offsets.headD 0 ≤ b.offsets.headD 0) := by
  have hsites {sites : List Site} (h : sites ∈ detectorSites text) :
      ∃ numbers, (tapeOf text).sitesOf numbers = sites := by
    obtain ⟨numbers, -, heq⟩ := List.mem_map.1 h
    exact ⟨numbers, heq⟩
  have hinside : ∀ sites ∈ detectorSites text, ∀ site ∈ sites,
      site.layer < (parse text).circuit.layers.length := fun sites hmem site hsite => by
    obtain ⟨numbers, rfl⟩ := hsites hmem
    exact layer_lt_of_mem_sitesOf text hsite
  have hfound : ∀ sites ∈ detectorSites text, ∀ site ∈ sites,
      (Circuit.measurementAt order (parse text).circuit.layers site).isSome :=
    fun sites hmem site hsite => by
      obtain ⟨numbers, rfl⟩ := hsites hmem
      exact hretrieved site (mem_record_of_mem_sitesOf text hsite)
  have hreferences := Circuit.references_eq (marked_parse text) order detectorName
  rw [Tape.references_detectors order _ (legal_movesOf text) (ranged_movesOf text)] at hreferences
  have hnumbered : ((movesOf text).filterMap Move.detector?).zipIdx.flatMap (fun e =>
      ((Tape.after .standard (movesOf text)).sitesOf e.1).map
        (Tape.referenceTo order (parse text).circuit.layers (.ofNat .binary32 e.2))) =
      Circuit.numberedReferences order (parse text).circuit.layers (detectorSites text) := by
    rw [Circuit.numberedReferences, detectorSites, List.zipIdx_map, List.flatMap_map]
    rfl
  rw [hnumbered] at hreferences
  unfold Circuit.detectors
  dsimp only
  rw [hreferences, Circuit.total_measuredFrom hsep 0 0,
    Circuit.bySlot_of_numbered hslots hinside,
    Circuit.distinctDetectors_of_numbered order _ hinside hfound]

/-- The slot that an observable index goes to. -/
def observableSlot (index : Binary64) : Nat :=
  (index.convert .binary32).nearestNat maxSlot % indexModulus

theorem eq_offsets_iff {total : Nat} {found : List Measured} {os : List Int} :
    os = Circuit.offsets total found ↔
      os.Pairwise (· > ·) ∧ ∀ o, o ∈ os ↔ ∃ m ∈ found, o = (m.number : Int) - total := by
  constructor
  · rintro rfl
    exact ⟨Circuit.descending_pairwise _, fun o => Circuit.mem_offsets⟩
  · rintro ⟨hpairwise, hmem⟩
    exact Circuit.eq_of_descending hpairwise (Circuit.descending_pairwise _) fun o => by
      rw [hmem, ← Circuit.mem_offsets, Circuit.offsets]

/-- The references that observables make, whatever their order. -/
theorem mem_references_observable {r : Circuit.Reference} :
    r ∈ Circuit.references observableName
        (Circuit.measuredFrom order 0 (parse text).circuit.layers) ↔
      ∃ e ∈ (movesOf text).filterMap Move.observable?, ∃ site ∈ (tapeOf text).sitesOf e.2,
        r = ⟨(e.1.convert .binary32).nearestNat maxSlot,
          Circuit.measurementAt order (parse text).circuit.layers site⟩ := by
  rw [Circuit.references_eq (marked_parse text) order observableName,
    Tape.references_observables order _ (legal_movesOf text) (ranged_movesOf text)]
  have hinside : ∀ x ∈ ((movesOf text).filterMap Move.observable?).flatMap (fun e =>
      ((tapeOf text).sitesOf e.2).map
        (Tape.referenceTo order (parse text).circuit.layers (e.1.convert .binary32))),
      x.1 < (parse text).circuit.layers.length := by
    intro x hx
    obtain ⟨e, -, hx⟩ := List.mem_flatMap.1 hx
    obtain ⟨site, hsite, rfl⟩ := List.mem_map.1 hx
    exact layer_lt_of_mem_sitesOf text hsite
  have hperm := Circuit.byLayer_perm Prod.fst hinside
  rw [List.mem_map]
  constructor
  · rintro ⟨x, hx, rfl⟩
    obtain ⟨e, he, hx⟩ := List.mem_flatMap.1 (hperm.mem_iff.1 hx)
    obtain ⟨site, hsite, rfl⟩ := List.mem_map.1 hx
    exact ⟨e, he, site, hsite, rfl⟩
  · rintro ⟨e, he, site, hsite, rfl⟩
    exact ⟨_, hperm.mem_iff.2 (List.mem_flatMap.2 ⟨e, he, List.mem_map_of_mem hsite⟩), rfl⟩

/-- What the observable in a slot consists of. -/
theorem mem_observables_parse (hsep : Separated order (parse text).circuit.layers)
    {v : Nat} {os : List Int} :
    (v, os) ∈ ((parse text).circuit.detectors order).observables ↔
      (∃ e ∈ (movesOf text).filterMap Move.observable?, observableSlot e.1 = v ∧
        (tapeOf text).sitesOf e.2 ≠ []) ∧
      os.Pairwise (· > ·) ∧ ∀ o, o ∈ os ↔
        ∃ e ∈ (movesOf text).filterMap Move.observable?, observableSlot e.1 = v ∧
          ∃ site ∈ (tapeOf text).sitesOf e.2, ∃ m,
            Circuit.measurementAt order (parse text).circuit.layers site = some m ∧
              o = (m.number : Int) -
                (Circuit.recordIn order 0 (parse text).circuit.layers).length := by
  unfold Circuit.detectors
  dsimp only
  rw [Circuit.total_measuredFrom hsep 0 0]
  generalize hrefs : (Circuit.references observableName
    (Circuit.measuredFrom order 0 (parse text).circuit.layers)).map
      (fun r => ({ r with slot := r.slot % indexModulus } : Circuit.Reference)) = refs
  have hmem {r : Circuit.Reference} : r ∈ refs ↔
      ∃ e ∈ (movesOf text).filterMap Move.observable?, ∃ site ∈ (tapeOf text).sitesOf e.2,
        r = ⟨observableSlot e.1,
          Circuit.measurementAt order (parse text).circuit.layers site⟩ := by
    rw [← hrefs, List.mem_map]
    constructor
    · rintro ⟨r, hr, rfl⟩
      obtain ⟨e, he, site, hsite, rfl⟩ := mem_references_observable.1 hr
      exact ⟨e, he, site, hsite, rfl⟩
    · rintro ⟨e, he, site, hsite, rfl⟩
      exact ⟨_, mem_references_observable.2 ⟨e, he, site, hsite, rfl⟩, rfl⟩
  have hentry : (v, os) ∈ (Circuit.bySlot refs).map (fun entry => (entry.1,
      Circuit.offsets (Circuit.recordIn order 0 (parse text).circuit.layers).length entry.2)) ↔
      (∃ r ∈ refs, r.slot = v) ∧ os =
        Circuit.offsets (Circuit.recordIn order 0 (parse text).circuit.layers).length
          (Circuit.gathered refs v) := by
    rw [List.mem_map]
    constructor
    · rintro ⟨entry, he, heq⟩
      obtain ⟨hslot, hfound⟩ := Circuit.mem_bySlot.1 he
      cases heq
      exact ⟨hslot, by rw [hfound]⟩
    · rintro ⟨hslot, rfl⟩
      exact ⟨(v, Circuit.gathered refs v), Circuit.mem_bySlot.2 ⟨hslot, rfl⟩, rfl⟩
  rw [hentry, eq_offsets_iff]
  refine and_congr ?_ (and_congr_right fun _ => forall_congr' fun o => ?_)
  · constructor
    · rintro ⟨r, hr, hslot⟩
      obtain ⟨e, he, site, hsite, rfl⟩ := hmem.1 hr
      exact ⟨e, he, hslot, List.ne_nil_of_mem hsite⟩
    · rintro ⟨e, he, hslot, hne⟩
      obtain ⟨site, rest, hsites⟩ := List.exists_cons_of_ne_nil hne
      exact ⟨_, hmem.2 ⟨e, he, site, by rw [hsites]; exact List.mem_cons_self, rfl⟩, hslot⟩
  · refine iff_congr Iff.rfl ?_
    constructor
    · rintro ⟨m, hm, ho⟩
      obtain ⟨r, hr, hslot, hmeasured⟩ := Circuit.mem_gathered.1 hm
      obtain ⟨e, he, site, hsite, rfl⟩ := hmem.1 hr
      exact ⟨e, he, hslot, site, hsite, m, hmeasured, ho⟩
    · rintro ⟨e, he, hslot, site, hsite, m, hmeasured, ho⟩
      exact ⟨m, Circuit.mem_gathered.2 ⟨_, hmem.2 ⟨e, he, site, hsite, rfl⟩, hslot, hmeasured⟩, ho⟩

theorem pairwise_observables :
    ((parse text).circuit.detectors order).observables.Pairwise fun a b => a.1 < b.1 := by
  unfold Circuit.detectors
  exact List.pairwise_map.2 (Circuit.pairwise_bySlot _)

end Build

end StimOverlay
