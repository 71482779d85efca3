import StimOverlay.Proofs.RoundTrip.RestoredDetectors

/-! Round trip. The text that is written for a circuit without tags and arguments is parsed into the
circuit again, up to the numbers of its qubits and to the order of operations within its layers. -/

namespace StimOverlay

open Build Emission Numeric

/-- Circuit `c'` is circuit `c` written out and read again. -/
structure Restored (c c' : Circuit) : Prop where
  /-- The qubits that the circuit acts on are numbered without gaps. -/
  dense : ∀ q ∈ c.activeQubits, (numberingOf c .plain).number q < c.activeQubits.length
  /-- They are numbered by their coordinates, and by their own numbers where these do not decide. -/
  ordered : ∀ q ∈ c.activeQubits, ∀ r ∈ c.activeQubits,
    ((numberingOf c .plain).number q < (numberingOf c .plain).number r ↔ rank c q < rank c r)
  /-- The layers are the same, except that those at the end that hold nothing to write are left out;
  one layer stays. -/
  layers : ∃ kept dropped, c.layers = kept ++ dropped ∧
    List.Forall₂ (Rewritten (numberingOf c .plain)) kept c'.layers ∧
    (∀ l ∈ dropped, l.operationsAndMarkers = []) ∧
    (kept.length = 1 ∨ ∃ l, kept.getLast? = some l ∧ l.operationsAndMarkers ≠ [])
  /-- Every qubit keeps its coordinates; they are written without negative zeros. -/
  coordinates : ∀ q ∈ c.activeQubits,
    c'.coordsOf ((numberingOf c .plain).number q) = (c.coordsOf q).place
  detectors : (c'.detectors .output).detectors.map (·.offsets) =
    (c.detectors .output).detectors.map (·.offsets)
  observables : (c'.detectors .output).observables = (c.detectors .output).observables

namespace Build

variable {text : String}

theorem length_detectorSites (text : String) :
    (detectorSites text).length = ((movesOf text).filterMap Move.detector?).length :=
  List.length_map _

/-- No more detectors are collected than were accepted. -/
theorem length_detectors_parse_le
    (h : ((movesOf text).filterMap Move.detector?).length < 2 ^ 24) :
    ((parse text).circuit.detectors .output).detectors.length ≤
      ((movesOf text).filterMap Move.detector?).length := by
  rw [← length_detectorSites] at h ⊢
  rw [detectors_parse (separated_output text) (retrieved_output text) fun d hd =>
    detectorSlot_eq (hd.trans h), List.length_mergeSort]
  calc _ ≤ (((detectorSites text).filter (!·.isEmpty)).map
            (Circuit.detectorAt .output (parse text).circuit.layers)).length :=
        (eraseDupsBy_sublist _ _).length_le
    _ = ((detectorSites text).filter (!·.isEmpty)).length := List.length_map _
    _ ≤ (detectorSites text).length := List.length_filter_le _ _

/-- The indices of collected observables are indices of accepted ones. -/
theorem observable_lt_of_accepted
    (h : ∀ e ∈ (movesOf text).filterMap Move.observable?, e.1.toRat < 2 ^ 24) :
    ∀ e ∈ ((parse text).circuit.detectors .output).observables, e.1 < 2 ^ 24 := by
  intro e he
  obtain ⟨⟨accepted, haccepted, hslot, -⟩, -⟩ :=
    (mem_observables_parse (separated_output text)).1 (show (e.1, e.2) ∈ _ from he)
  obtain ⟨n, i, -, -, hindex, -⟩ := mem_observables_iff.1 haccepted
  obtain ⟨hfinite, k, hk⟩ := observableIndex?_nat hindex
  have hlt : k < 2 ^ 24 := by
    have hlt := h accepted haccepted
    rw [hk] at hlt
    exact_mod_cast hlt
  rwa [← hslot, observableSlot_eq hfinite hk hlt]

theorem countP_movesOfLines (n : Numbering) (k number : Nat) (ls : List Line) :
    (movesOfLines n k number ls).countP Move.measures = measurementsOf ls := by
  induction ls generalizing k number with
  | nil => rfl
  | cons l rest ih =>
      rw [movesOfLines, List.countP_append, countP_moves, ih]
      rfl

/-- Every measurement on written lines is recorded again. -/
theorem measurements_stimText (hmoves : movesOf (parse text).circuit.stimText =
      movesOfLines (numberingOf (parse text).circuit .plain) 0 1 (lines (parse text).circuit .plain)) :
    (parse (parse text).circuit.stimText).circuit.measurements =
      (parse text).circuit.measurements := by
  have hgrounded : ∀ m ∈ movesOf (parse text).circuit.stimText, m.Grounded :=
    fun m => grounded_of_mem_moves
  calc (parse (parse text).circuit.stimText).circuit.measurements
      = (tapeOf (parse text).circuit.stimText).record.size := (size_record_tapeOf _).symm
    _ = 0 + (movesOf (parse text).circuit.stimText).countP Move.measures :=
        record_size_foldl .standard hgrounded {}
    _ = measurementsOf (lines (parse text).circuit .plain) := by
        rw [Nat.zero_add, hmoves, countP_movesOfLines]
    _ = (parse text).circuit.measurements := measurementsOf_lines text .plain

/-- Writing a circuit and reading it again restores it, whether the run that it comes from was halted
or not. The circuit has no tags and no arguments, coordinates that middles can be taken of, and
detectors and observables that single precision can count. No list in memory is longer than the bound
on its record, which is the greatest offset that text can name. -/
theorem parse_stimText_restored (text : String) (h : Expressible (parse text).circuit)
    (hdetectors : ((movesOf text).filterMap Move.detector?).length < 2 ^ 24)
    (hobservables : ∀ e ∈ (movesOf text).filterMap Move.observable?, e.1.toRat < 2 ^ 24)
    (hrecord : (parse text).circuit.measurements ≤ Lexeme.offsetBound) :
    (parse (parse text).circuit.stimText).diagnostics = [] ∧
      Restored (parse text).circuit (parse (parse text).circuit.stimText).circuit := by
  have hcollected := (length_detectors_parse_le hdetectors).trans_lt hdetectors
  have hindices := observable_lt_of_accepted hobservables
  have hretraced := retraced_parse h.plain hrecord
  have hmoves : movesOf (parse text).circuit.stimText =
      movesOfLines (numberingOf (parse text).circuit .plain) 0 1 (lines (parse text).circuit .plain) :=
    hretraced.moves
  obtain ⟨kept, dropped, hsplit, hredrawn, hdropped, hlast⟩ := exists_kept h.plain hrecord
  have hrewritten : List.Forall₂ (Rewritten (numberingOf (parse text).circuit .plain)) kept
      (parse (parse text).circuit.stimText).circuit.layers :=
    hredrawn.imp fun _ _ h => h.toRewritten
  have horder : InPlacementOrder (parse text).circuit.stimText :=
    inPlacementOrder_of_rewritten hrewritten
  have hmeasurements := measurements_stimText hmoves
  refine ⟨hretraced.diagnostics, fun q hq => number_lt_length hq,
    fun q hq r hr => number_lt_number_iff h.plain.finite hq hr, ?_,
    fun q hq => coordsOf_parse_text h.plain hrecord hq, ?_, ?_⟩
  · refine ⟨kept, dropped, hsplit, hrewritten, fun l hl => (hdropped l hl).1, ?_⟩
    exact hlast.imp_right fun ⟨l, hl, hne⟩ => ⟨l, hl, hne.resolve_right fun hdrawn => hdrawn rfl⟩
  · refine detectors_of_declared horder ?_ ?_ ?_
    · rw [hmeasurements]
      exact collected_parse text
    · rwa [List.length_map]
    · rw [hmoves, detectors_of_lines, hmeasurements, List.map_map]
      rfl
  · refine observables_of_declared horder (fun e he => ?_) pairwise_observables hindices ?_
    · rw [hmeasurements]
      exact due_observable he
    · rw [hmoves, hmeasurements]
      exact observables_of_lines text

/-- Two measured qubits, numbered in the order opposite to that of their places. -/
theorem restored_pair :
    let c := (parse "QUBIT_COORDS(1) 0\nM 0 1\nDETECTOR rec[-2]\nOBSERVABLE_INCLUDE(3) rec[-1]").circuit
    c.activeQubits = [0, 1] ∧ c.measurements = 2 ∧ (parse c.stimText).diagnostics = [] ∧
      Restored c (parse c.stimText).circuit := by
  let text := "QUBIT_COORDS(1) 0\nM 0 1\nDETECTOR rec[-2]\nOBSERVABLE_INCLUDE(3) rec[-1]"
  -- A single evaluation, so that the text is parsed once.
  obtain ⟨hactive, hcount, hbare, hwithin, hdetectors, hobservables⟩ :
      (parse text).circuit.activeQubits = [0, 1] ∧ (parse text).circuit.measurements = 2 ∧
      (∀ op ∈ (parse text).circuit.operationsAndMarkers, IsWritten op → op.tag = "" ∧ op.args = []) ∧
      (∀ q ∈ (parse text).circuit.activeQubits,
        (((parse text).circuit.coordsOf q).x.isFinite ∧
            |((parse text).circuit.coordsOf q).x.toRat| ≤ 2 ^ 53) ∧
          ((parse text).circuit.coordsOf q).y.isFinite ∧
            |((parse text).circuit.coordsOf q).y.toRat| ≤ 2 ^ 53) ∧
      ((movesOf text).filterMap Move.detector?).length < 2 ^ 24 ∧
      ∀ e ∈ (movesOf text).filterMap Move.observable?, e.1.toRat < 2 ^ 24 := by
    decide +kernel
  have hrecord : (parse text).circuit.measurements ≤ Lexeme.offsetBound := by
    rw [hcount]
    decide
  exact ⟨hactive, hcount,
    parse_stimText_restored text ⟨hbare, hwithin⟩ hdetectors hobservables hrecord⟩

end Build

end StimOverlay
