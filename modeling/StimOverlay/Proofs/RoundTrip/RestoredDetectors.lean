import StimOverlay.Proofs.RoundTrip.RestoredLayers

/-! Restored detectors. The text of an expressible circuit declares the detectors that were collected for
it, in their order, and its observables. What is collected from the layers that the text is parsed into is
the same again. -/

namespace StimOverlay

open Build Numeric

namespace Emission

variable {n : Numbering}

/-- The numbers, in the record behind which it stands, of what a mention refers to. -/
def Mention.numbers (m : Mention) : List Nat := numbersOf (recordOf m.before).length m.offsets

/-- What `f` selects of moves depends, as `g` says, only on what the moves refer to. -/
structure Selects (f : Move → Option α) (g : Option Nat → List Nat → Option α) : Prop where
  tick : f .tick = none
  place : ∀ op, f (.place op) = none
  detector : ∀ line numbers, f (.detector "" line numbers) = g none numbers
  observable : ∀ index line numbers,
    f (.observable (.ofNat .binary64 index) "" line numbers) = g (some index) numbers

theorem selects_detectors : Selects Move.detector? fun index numbers =>
    if index.isNone then some numbers else none :=
  ⟨rfl, fun _ => rfl, fun _ _ => rfl, fun _ _ _ => rfl⟩

theorem selects_observables : Selects Move.observable? fun index numbers =>
    index.map fun i => (.ofNat .binary64 i, numbers) :=
  ⟨rfl, fun _ => rfl, fun _ _ => rfl, fun _ _ _ => rfl⟩

variable {f : Move → Option α} {g : Option Nat → List Nat → Option α}

theorem Selects.filterMap_moves (h : Selects f g) (l : Line) (number i : Nat)
    (before : List (Nat × Operation)) :
    (l.moves n (recordOf before).length number).filterMap f =
      (l.reference?.toList.map fun r => (⟨r.1, r.2, i, before⟩ : Mention)).filterMap fun m =>
        g m.index m.numbers := by
  have hplaced (ops : List Operation) :
      (ops.map fun op => Move.place (Build.renumber n number op)).filterMap f = [] := by
    rw [List.filterMap_map, List.filterMap_eq_nil_iff]
    exact fun op _ => h.place _
  cases l with
  | detector label offsets =>
      simp [Line.moves, Line.reference?, List.filterMap_cons, Mention.numbers, h.detector]
  | observable index offsets =>
      simp [Line.moves, Line.reference?, List.filterMap_cons, Mention.numbers, h.observable]
  | tick => simp [Line.moves, Line.reference?, h.tick]
  | operations heading ops => exact hplaced ops
  | products heading ops => exact hplaced ops
  | _ => rfl

/-- What is selected of the moves of lines is what is selected of their mentions. -/
theorem Selects.filterMap_movesOfLines (h : Selects f g) (ls : List Line) (number i : Nat)
    (before : List (Nat × Operation)) :
    (movesOfLines n (recordOf before).length number ls).filterMap f =
      (mentions i before ls).filterMap fun m => g m.index m.numbers := by
  induction ls generalizing number i before with
  | nil => rfl
  | cons l rest ih =>
      have hlength : (recordOf before).length + l.measurements =
          (recordOf (before ++ l.ops.map (i, ·))).length := by
        rw [recordOf_append, recordOf_map, List.length_append, List.length_map,
          ← List.countP_eq_length_filter]
        rfl
      rw [movesOfLines, mentions, List.filterMap_append, List.filterMap_append,
        h.filterMap_moves l number i before, hlength, ih]

variable {total : Nat} {all : List (Nat × Operation)} {m : Mention}
  {entry : Option Nat × List Int}

/-- A mention and its entry name the same measurements, whether they are counted from where it stands
or from the end. -/
theorem Fits.numbers (h : Fits total all m entry) : m.numbers = numbersOf total entry.2 := by
  rw [Mention.numbers, numbersOf, numbersOf, h.offsets, List.map_map]
  refine List.map_congr_left fun o _ => congrArg Int.toNat ?_
  dsimp only
  omega

/-- What is selected of the moves of written lines is what is selected of the entries they are written for. -/
theorem Selects.filterMap_entries (h : Selects f g) {ls : List Line}
    {entries : List (Option Nat × List Int)}
    (hfits : List.Forall₂ (Fits total all) (mentions 0 [] ls) entries) :
    (movesOfLines n 0 1 ls).filterMap f =
      entries.filterMap fun e => g e.1 (numbersOf total e.2) := by
  refine (h.filterMap_movesOfLines (n := n) ls 1 0 []).trans ?_
  generalize mentions 0 [] ls = ms at hfits ⊢
  induction hfits with
  | nil => rfl
  | cons head _ ih =>
      rw [List.filterMap_cons, List.filterMap_cons, head.index, head.numbers, ih]

end Emission

namespace Build

open Emission

variable {text : String}

/-- The lines of a circuit declare the collected detectors, in order. -/
theorem detectors_of_lines (text : String) :
    (movesOfLines (numberingOf (parse text).circuit .plain) 0 1
        (lines (parse text).circuit .plain)).filterMap Move.detector? =
      ((parse text).circuit.detectors .output).detectors.map fun d =>
        numbersOf (parse text).circuit.measurements d.offsets := by
  obtain ⟨entries, -, horder, hfits⟩ := fits_lines text .plain
  have hfiltered : (entries.filterMap fun e => if e.1.isNone then
      some (numbersOf (parse text).circuit.measurements e.2) else none) =
        (entries.filter (·.1.isNone)).map fun e =>
          numbersOf (parse text).circuit.measurements e.2 := by
    rw [← List.filterMap_eq_map, List.filterMap_filter]
    rfl
  rw [selects_detectors.filterMap_entries hfits, hfiltered, horder, Pending.filter_entries,
    List.map_map]
  rfl

/-- They declare the collected observables, in some order. -/
theorem observables_of_lines (text : String) :
    ((movesOfLines (numberingOf (parse text).circuit .plain) 0 1
        (lines (parse text).circuit .plain)).filterMap Move.observable?).Perm
      (((parse text).circuit.detectors .output).observables.map fun e =>
        (.ofNat .binary64 e.1, numbersOf (parse text).circuit.measurements e.2)) := by
  obtain ⟨entries, hperm, -, hfits⟩ := fits_lines text .plain
  rw [selects_observables.filterMap_entries hfits]
  refine (hperm.filterMap _).trans (.of_eq ?_)
  simp [Pending.entries, Pending.ofCircuit, List.filterMap_map]

end Build

namespace Emission

variable {n : Numbering}

theorem headings_of_actions {ops original : List Operation}
    (h : ops.map Action.ofOperation = actionsOf n original) :
    ops.map Operation.heading = original.map Operation.heading := by
  rw [← List.forall₂_eq_eq_eq, actionsOf, List.forall₂_map_left_iff, List.forall₂_map_right_iff]
    at h
  rw [← List.forall₂_eq_eq_eq, List.forall₂_map_left_iff, List.forall₂_map_right_iff]
  refine h.imp fun a b hab => ?_
  obtain ⟨hgate, htag, hargs, -⟩ := Action.mk.inj hab
  rw [Operation.heading, Operation.heading, hgate, htag, hargs]
  rfl

end Emission

namespace Circuit

variable {layers : List Layer}

/-- Measurements are found with the same numbers if the record has the same order. -/
theorem measurementAt_congr (hplacement : Separated .placement layers)
    (houtput : Separated .output layers)
    (h : recordIn .output 0 layers = recordIn .placement 0 layers) :
    measurementAt .output layers = measurementAt .placement layers := by
  funext site
  refine Option.ext fun m => ?_
  rw [measurementAt_eq_some_iff houtput, measurementAt_eq_some_iff hplacement, h]

end Circuit

namespace Build

open Emission

variable {text : String}

/-- Measurements are numbered in the order in which they were placed. -/
def InPlacementOrder (text : String) : Prop :=
  Circuit.recordIn .output 0 (parse text).circuit.layers =
    Circuit.recordIn .placement 0 (parse text).circuit.layers

/-- Rewritten layers are numbered in the order in which they are placed. -/
theorem inPlacementOrder_of_rewritten {n : Numbering} {kept : List Layer}
    (h : List.Forall₂ (Rewritten n) kept (parse text).circuit.layers) :
    InPlacementOrder text := by
  have hstage : ∀ l ∈ (parse text).circuit.layers, ∀ k,
      stage k (l.inOrder .output) = stage k (l.inOrder .placement) := by
    intro l hl k
    rw [Layer.stage_output (filed_parse hl)]
    obtain ⟨i, hi, rfl⟩ := List.mem_iff_getElem.1 hl
    have hrewritten := ((List.forall₂_iff_get.1 h).2 i (h.length_eq ▸ hi) hi).operations
    have hsorted := Layer.sorted_grouped (kept.get ⟨i, h.length_eq ▸ hi⟩).operations.toList
    rw [← headings_of_actions hrewritten] at hsorted
    exact congrArg _ (Layer.grouped_of_sorted hsorted)
  have hrecord : ∀ (layers : List Layer) (k : Nat), (∀ l ∈ layers, ∀ k,
      stage k (l.inOrder .output) = stage k (l.inOrder .placement)) →
        Circuit.recordIn .output k layers = Circuit.recordIn .placement k layers := by
    intro layers
    induction layers with
    | nil => exact fun k _ => rfl
    | cons l rest ih =>
        intro k hlayers
        obtain ⟨hl, hrest⟩ := List.forall_mem_cons.1 hlayers
        exact congrArg₂ (· ++ ·) (hl k) (ih (k + 1) hrest)
  exact hrecord _ 0 hstage

theorem mem_numbersOf_iff {total : Nat} {entry : Option Nat × List Int} (h : Due total 0 entry)
    {o : Int} : (∃ x ∈ numbersOf total entry.2, o = (x : Int) - total) ↔ o ∈ entry.2 := by
  constructor
  · rintro ⟨x, hx, rfl⟩
    obtain ⟨o, ho, rfl⟩ := List.mem_map.1 hx
    have hrange := h.range o ho
    rwa [show (((total : Int) + o).toNat : Int) - total = o by omega]
  · intro ho
    have hrange := h.range o ho
    exact ⟨_, List.mem_map_of_mem ho, by omega⟩

theorem lt_of_mem_numbersOf {total : Nat} {entry : Option Nat × List Int} (h : Due total 0 entry) :
    ∀ x ∈ numbersOf total entry.2, x < total := by
  intro x hx
  obtain ⟨o, ho, rfl⟩ := List.mem_map.1 hx
  have hrange := h.range o ho
  omega

/-- Lists of offsets as they are collected for detectors. -/
structure Collected (total : Nat) (collected : List (List Int)) : Prop where
  due : ∀ os ∈ collected, Due total 0 (none, os)
  nodup : collected.Nodup
  sorted : collected.Pairwise fun a b => a.headD 0 ≤ b.headD 0

theorem collected_parse (text : String) : Collected (parse text).circuit.measurements
    (((parse text).circuit.detectors .output).detectors.map (·.offsets)) where
  due os hos := by
    obtain ⟨d, hd, rfl⟩ := List.mem_map.1 hos
    exact due_detector hd
  nodup := by
    unfold Circuit.detectors Circuit.distinctDetectors
    dsimp only
    rw [((List.mergeSort_perm _ _).map _).nodup_iff, map_eraseDupsBy]
    exact nodup_eraseDups _
  sorted := List.pairwise_map.2 (waiting_parse text).sorted

theorem InPlacementOrder.measurementAt (h : InPlacementOrder text) :
    Circuit.measurementAt .output (parse text).circuit.layers =
      Circuit.measurementAt .placement (parse text).circuit.layers :=
  Circuit.measurementAt_congr (separated_parse text) (separated_output text) h

theorem lt_size_of_mem_numbersOf {entry : Option Nat × List Int}
    (h : Due (parse text).circuit.measurements 0 entry) :
    ∀ x ∈ numbersOf (parse text).circuit.measurements entry.2, x < (tapeOf text).record.size :=
  fun x hx => size_record_tapeOf text ▸ lt_of_mem_numbersOf h x hx

theorem sitesOf_ne_nil_of_due {entry : Option Nat × List Int}
    (h : Due (parse text).circuit.measurements 0 entry) :
    (tapeOf text).sitesOf (numbersOf (parse text).circuit.measurements entry.2) ≠ [] := by
  obtain ⟨last, hlast, -⟩ := h.last
  rw [ne_eq, sitesOf_eq_nil_iff (lt_size_of_mem_numbersOf h), numbersOf, List.map_eq_nil_iff]
  exact List.ne_nil_of_mem (List.mem_of_head? hlast)

/-- The offsets of a detector that was declared with them. -/
theorem offsets_detectorAt_of_declared (h : InPlacementOrder text) {os : List Int}
    (hdue : Due (parse text).circuit.measurements 0 (none, os)) :
    (Circuit.detectorAt .output (parse text).circuit.layers ((tapeOf text).sitesOf
      (numbersOf (parse text).circuit.measurements os))).offsets = os := by
  have hplacement : Circuit.detectorAt .output (parse text).circuit.layers =
      Circuit.detectorAt .placement (parse text).circuit.layers := by
    funext sites
    rw [Circuit.detectorAt, Circuit.detectorAt, Circuit.foundAt, h.measurementAt, h]
    rfl
  rw [hplacement]
  refine Circuit.eq_of_descending (Circuit.descending_pairwise _) hdue.ordered fun o => ?_
  rw [mem_offsets_detectorAt (lt_size_of_mem_numbersOf hdue)]
  exact mem_numbersOf_iff hdue

/-- Detectors that were collected once, and are declared again, are collected again. -/
theorem detectors_of_declared (h : InPlacementOrder text) {collected : List (List Int)}
    (hcollected : Collected (parse text).circuit.measurements collected)
    (hlength : collected.length < 2 ^ 24)
    (hmoves : (movesOf text).filterMap Move.detector? =
      collected.map (numbersOf (parse text).circuit.measurements)) :
    ((parse text).circuit.detectors .output).detectors.map (·.offsets) = collected := by
  have hsites : detectorSites text = collected.map fun os =>
      (tapeOf text).sitesOf (numbersOf (parse text).circuit.measurements os) := by
    rw [detectorSites, hmoves, List.map_map]
    rfl
  have hnamed : (detectorSites text).filter (!·.isEmpty) = detectorSites text := by
    refine List.filter_eq_self.2 fun sites hsites' => ?_
    rw [hsites] at hsites'
    obtain ⟨os, hos, rfl⟩ := List.mem_map.1 hsites'
    rw [Bool.not_eq_true', List.isEmpty_eq_false_iff]
    exact sitesOf_ne_nil_of_due (hcollected.due os hos)
  have hoffsets : ((detectorSites text).map
      (Circuit.detectorAt .output (parse text).circuit.layers)).map (·.offsets) = collected := by
    rw [hsites, List.map_map, List.map_map]
    exact (List.map_congr_left fun os hos =>
      offsets_detectorAt_of_declared h (hcollected.due os hos)).trans (List.map_id _)
  have hsort (ds : List Detector) :
      (ds.mergeSort fun a b => decide (a.offsets.headD 0 ≤ b.offsets.headD 0)).map (·.offsets) =
        (ds.map (·.offsets)).mergeSort fun a b => decide (a.headD 0 ≤ b.headD 0) :=
    List.map_mergeSort fun _ _ _ _ => rfl
  rw [detectors_parse (separated_output text) (retrieved_output text) fun d hd =>
    detectorSlot_eq (hd.trans (by rwa [hsites, List.length_map])), hnamed,
    hsort, map_eraseDupsBy, hoffsets, eraseDups_of_nodup hcollected.nodup]
  exact List.mergeSort_of_pairwise (hcollected.sorted.imp fun hle => decide_eq_true hle)

/-- The moves that declare collected observables again, slot by slot. -/
theorem exists_declared_iff {collected : List (Nat × List Int)}
    (hindex : ∀ e ∈ collected, e.1 < 2 ^ 24)
    (hmoves : ((movesOf text).filterMap Move.observable?).Perm (collected.map fun e =>
      (.ofNat .binary64 e.1, numbersOf (parse text).circuit.measurements e.2)))
    {v : Nat} {P : List Nat → Prop} :
    (∃ e ∈ (movesOf text).filterMap Move.observable?, observableSlot e.1 = v ∧ P e.2) ↔
      ∃ e ∈ collected, e.1 = v ∧ P (numbersOf (parse text).circuit.measurements e.2) := by
  have hslot : ∀ e ∈ collected, observableSlot (.ofNat .binary64 e.1) = e.1 := by
    intro e he
    have hlt := hindex e he
    have hexact : e.1 < 2 ^ Format.binary64.precision := hlt.trans (by decide)
    obtain ⟨hfinite, hvalue⟩ := Binary.toRat_ofNat Format.ample_binary64 hexact
    exact observableSlot_eq hfinite hvalue hlt
  simp only [hmoves.mem_iff, List.mem_map]
  constructor
  · rintro ⟨_, ⟨e, he, rfl⟩, rfl, hP⟩
    exact ⟨e, he, (hslot e he).symm, hP⟩
  · rintro ⟨e, he, rfl, hP⟩
    exact ⟨_, ⟨e, he, rfl⟩, hslot e he, hP⟩

/-- Observables that were collected once, and are declared again, are collected again. -/
theorem observables_of_declared (h : InPlacementOrder text) {collected : List (Nat × List Int)}
    (hdue : ∀ e ∈ collected, Due (parse text).circuit.measurements 0 (some e.1, e.2))
    (hsorted : collected.Pairwise fun a b => a.1 < b.1) (hindex : ∀ e ∈ collected, e.1 < 2 ^ 24)
    (hmoves : ((movesOf text).filterMap Move.observable?).Perm (collected.map fun e =>
      (.ofNat .binary64 e.1, numbersOf (parse text).circuit.measurements e.2))) :
    ((parse text).circuit.detectors .output).observables = collected := by
  have hfound {v : Nat} {o : Int} :
      (∃ e ∈ (movesOf text).filterMap Move.observable?, observableSlot e.1 = v ∧
        ∃ site ∈ (tapeOf text).sitesOf e.2, ∃ m,
          Circuit.measurementAt .placement (parse text).circuit.layers site = some m ∧
            o = (m.number : Int) - (parse text).circuit.measurements) ↔
        ∃ e ∈ collected, e.1 = v ∧ o ∈ e.2 := by
    rw [exists_declared_iff hindex hmoves (P := fun numbers => ∃ site ∈ (tapeOf text).sitesOf numbers, ∃ m,
      Circuit.measurementAt .placement (parse text).circuit.layers site = some m ∧
        o = (m.number : Int) - (parse text).circuit.measurements)]
    refine exists_congr fun e => and_congr_right fun he => and_congr_right fun _ => ?_
    rw [exists_measurementAt_iff (lt_size_of_mem_numbersOf (hdue e he))
      (P := fun k => o = (k : Int) - (parse text).circuit.measurements)]
    exact mem_numbersOf_iff (hdue e he)
  have hnodup : (collected.map (·.1)).Nodup :=
    List.pairwise_map.2 (hsorted.imp fun hlt => Nat.ne_of_lt hlt)
  have hsame (e : Nat × List Int) (he : e ∈ collected) (o : Int) :
      (∃ e' ∈ collected, e'.1 = e.1 ∧ o ∈ e'.2) ↔ o ∈ e.2 := by
    refine ⟨fun ⟨e', he', heq, ho⟩ => ?_, fun ho => ⟨e, he, rfl, ho⟩⟩
    rwa [← List.inj_on_of_nodup_map hnodup he' he heq]
  refine eq_of_ascending pairwise_observables hsorted fun ⟨v, os⟩ => ?_
  rw [mem_observables_parse (separated_output text), h.measurementAt, length_record_output,
    exists_declared_iff hindex hmoves (P := fun numbers => (tapeOf text).sitesOf numbers ≠ [])]
  simp only [hfound]
  constructor
  · rintro ⟨⟨e, he, rfl, -⟩, hos, hmem⟩
    have heq : os = e.2 := Circuit.eq_of_descending hos (hdue e he).ordered fun o =>
      (hmem o).trans (hsame e he o)
    rwa [heq]
  · exact fun he => ⟨⟨_, he, rfl, sitesOf_ne_nil_of_due (hdue _ he)⟩, (hdue _ he).ordered,
      fun o => (hsame _ he o).symm⟩

end Build

end StimOverlay
