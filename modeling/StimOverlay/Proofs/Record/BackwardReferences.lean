import StimOverlay.Proofs.Record.CollectedDetectors

/-! Backward references. A detector or an observable is written with references that count backwards from
where it stands; collected, it has offsets that count backwards from the end of the record. The two name
the same measurements. -/

namespace StimOverlay

open Build Numeric

namespace Build

/-- Instruction `i` is executed behind `n` measurements. -/
def Executed (ctx : Context) (acts : List Act) (n : Nat) (i : Instruction) : Prop :=
  ∃ done a rest line, acts = done ++ a :: rest ∧ a.instruction? = some (line, i) ∧
    n = (moves ctx done).countP Move.measures

/-- Every target is `rec[-k]` for one of the latest `n` measurements. -/
def Accepted (n : Nat) (i : Instruction) : Prop :=
  ∀ t ∈ i.targets, ∃ k : Nat, 0 < k ∧ k ≤ n ∧ t = .record (-k)

/-- The line of an act is an instruction of the given name. -/
def Act.isFor (name : String) (a : Act) : Bool := a.instruction?.any (·.2.name == name)

theorem executed_of_getElem? {ctx : Context} {acts : List Act} {n : Nat} {i : Instruction}
    (k line : Nat) (h : acts[k]?.bind Act.instruction? = some (line, i))
    (hn : n = (moves ctx (acts.take k)).countP Move.measures) : Executed ctx acts n i := by
  obtain ⟨a, ha, hi⟩ := Option.bind_eq_some_iff.1 h
  obtain ⟨hlength, rfl⟩ := List.getElem?_eq_some_iff.1 ha
  refine ⟨acts.take k, acts[k], acts.drop (k + 1), line, ?_, hi, hn⟩
  rw [← List.drop_eq_getElem_cons hlength]
  exact (List.take_append_drop k acts).symm

theorem recordNumber?_eq_some_iff {n x : Nat} {t : Target} :
    recordNumber? n t = some x ↔ ∃ k : Nat, 0 < k ∧ k ≤ n ∧ t = .record (-k) ∧ x = n - k := by
  cases t with
  | record offset =>
      simp only [recordNumber?]
      constructor
      · intro h
        split at h
        · cases h
          exact ⟨(-offset).toNat, by omega, by omega, by congr 1; omega, by omega⟩
        · cases h
      · rintro ⟨k, hpos, hle, heq, rfl⟩
        cases heq
        rw [if_pos (by omega)]
        congr 1
        omega
  | _ => simp [recordNumber?]

theorem recordNumbers?_eq_some {n : Nat} {ts : List Target} {numbers : List Nat}
    (h : recordNumbers? n ts = some numbers) :
    (∀ t ∈ ts, ∃ k : Nat, 0 < k ∧ k ≤ n ∧ t = .record (-k)) ∧
      ∀ x, x ∈ numbers ↔ ∃ k : Nat, .record (-k) ∈ ts ∧ 0 < k ∧ k ≤ n ∧ x = n - k := by
  induction ts generalizing numbers with
  | nil =>
      cases h
      exact ⟨fun t ht => absurd ht List.not_mem_nil, fun x => by simp⟩
  | cons t rest ih =>
      rw [recordNumbers?, Option.bind_eq_some_iff] at h
      obtain ⟨y, hy, h⟩ := h
      obtain ⟨more, hmore, rfl⟩ := Option.map_eq_some_iff.1 h
      obtain ⟨hall, hmem⟩ := ih hmore
      obtain ⟨k, hpos, hle, rfl, rfl⟩ := recordNumber?_eq_some_iff.1 hy
      constructor
      · intro t ht
        rcases List.mem_cons.1 ht with rfl | ht
        · exact ⟨k, hpos, hle, rfl⟩
        · exact hall t ht
      · intro x
        rw [List.mem_cons, hmem]
        constructor
        · rintro (rfl | ⟨k', hk', hrest⟩)
          · exact ⟨k, List.mem_cons_self, hpos, hle, rfl⟩
          · exact ⟨k', List.mem_cons_of_mem _ hk', hrest⟩
        · rintro ⟨k', hk', hpos', hle', rfl⟩
          rcases List.mem_cons.1 hk' with heq | hk'
          · have hsame : -(k' : Int) = -(k : Int) := Target.record.inj heq
            exact .inl (by omega)
          · exact .inr ⟨k', hk', hpos', hle', rfl⟩

theorem recordNumbers?_isSome {n : Nat} {ts : List Target}
    (h : ∀ t ∈ ts, ∃ k : Nat, 0 < k ∧ k ≤ n ∧ t = .record (-k)) :
    ∃ numbers, recordNumbers? n ts = some numbers := by
  induction ts with
  | nil => exact ⟨[], rfl⟩
  | cons t rest ih =>
      obtain ⟨k, hpos, hle, ht⟩ := h t List.mem_cons_self
      obtain ⟨more, hmore⟩ := ih fun t ht => h t (List.mem_cons_of_mem _ ht)
      refine ⟨(n - k) :: more, ?_⟩
      rw [recordNumbers?, recordNumber?_eq_some_iff.2 ⟨k, hpos, hle, ht, rfl⟩, hmore]
      rfl

theorem mem_moves_iff {ctx : Context} {acts : List Act} {m : Move} :
    m ∈ moves ctx acts ↔ ∃ n i line, m ∈ instructionMoves ctx n line i ∧
      ∃ done a rest, acts = done ++ a :: rest ∧ a.instruction? = some (line, i) ∧
        n = (moves ctx done).countP Move.measures := by
  induction acts using List.reverseRecOn with
  | nil =>
      constructor
      · intro h
        exact absurd h List.not_mem_nil
      · rintro ⟨n, i, line, -, done, a, rest, hsplit, -⟩
        cases done <;> cases hsplit
  | append_singleton acts a ih =>
      rw [moves_concat, List.mem_append, ih]
      constructor
      · rintro (⟨n, i, line, hm, done, b, rest, rfl, hb⟩ | hm)
        · exact ⟨n, i, line, hm, done, b, rest ++ [a], by simp, hb⟩
        · obtain ⟨line, i, hi, hm⟩ := instruction_of_mem_moves hm
          exact ⟨_, i, line, hm, acts, a, [], rfl, hi, rfl⟩
      · rintro ⟨n, i, line, hm, done, b, rest, hsplit, hi, hn⟩
        rcases List.eq_nil_or_concat rest with rfl | ⟨init, last, rfl⟩
        · obtain ⟨rfl, hlast⟩ := List.append_inj' hsplit rfl
          cases hlast
          right
          rw [moves_of_instruction hi, ← hn]
          exact hm
        · left
          rw [List.concat_eq_append, ← List.cons_append, ← List.append_assoc] at hsplit
          obtain ⟨rfl, -⟩ := List.append_inj' hsplit rfl
          exact ⟨n, i, line, hm, done, b, init, rfl, hi, hn⟩

theorem instructionMoves_of_marker {ctx : Context} {n line : Nat} {i : Instruction}
    (h : i.name = detectorName ∨ i.name = observableName) :
    instructionMoves ctx n line i = markerMoves n line i := by
  have htick : i.name ≠ tickName := by
    rcases h with h | h
    · rw [h]
      decide
    · rw [h]
      decide
  have hother : ¬(i.name = coordinatesName ∨ i.name = polygonName) := by
    rcases h with h | h
    · rw [h]
      decide
    · rw [h]
      decide
  rw [instructionMoves, if_neg htick, if_neg hother, if_pos h]

/-- Detectors and observables are moves of instructions by these names only. -/
theorem marker_of_mem_instructionMoves {ctx : Context} {n line : Nat} {i : Instruction} {m : Move}
    (h : m ∈ instructionMoves ctx n line i)
    (hm : m.detector?.isSome ∨ m.observable?.isSome) :
    i.name = detectorName ∨ i.name = observableName := by
  obtain ⟨-, rfl⟩ | ⟨hname, -⟩ | ⟨-, ⟨op, rfl, -⟩ | ⟨err, q, -, -, rfl⟩⟩ :=
    instructionMoves_cases h
  · exact absurd hm (by simp [Move.detector?, Move.observable?])
  · exact hname
  · exact absurd hm (by simp [Move.detector?, Move.observable?])
  · exact absurd hm (by simp [Move.detector?, Move.observable?])

theorem mem_detectors_iff {ctx : Context} {acts : List Act} {numbers : List Nat} :
    numbers ∈ (moves ctx acts).filterMap Move.detector? ↔
      ∃ n i, Executed ctx acts n i ∧ i.name = detectorName ∧
        recordNumbers? n i.targets = some numbers := by
  rw [List.mem_filterMap]
  constructor
  · rintro ⟨m, hm, hdetector⟩
    obtain ⟨n, i, line, hm, done, a, rest, hsplit, hi, hn⟩ := mem_moves_iff.1 hm
    have hname := marker_of_mem_instructionMoves hm (.inl (by rw [hdetector]; rfl))
    rw [instructionMoves_of_marker hname] at hm
    obtain ⟨numbers', hnumbers, ⟨hname, rfl⟩ | ⟨v, -, rfl⟩⟩ :=
      detector_or_observable_of_markerMoves hm
    · cases hdetector
      exact ⟨n, i, ⟨done, a, rest, line, hsplit, hi, hn⟩, hname, hnumbers⟩
    · cases hdetector
  · rintro ⟨n, i, ⟨done, a, rest, line, hsplit, hi, hn⟩, hname, hnumbers⟩
    refine ⟨.detector i.tag line numbers, mem_moves_iff.2 ⟨n, i, line, ?_, done, a, rest, hsplit,
      hi, hn⟩, rfl⟩
    rw [instructionMoves_of_marker (.inl hname), markerMoves, hnumbers]
    simp [hname]

theorem mem_observables_iff {ctx : Context} {acts : List Act} {e : Binary64 × List Nat} :
    e ∈ (moves ctx acts).filterMap Move.observable? ↔
      ∃ n i, Executed ctx acts n i ∧ i.name = observableName ∧ observableIndex? i = some e.1 ∧
        recordNumbers? n i.targets = some e.2 := by
  rw [List.mem_filterMap]
  constructor
  · rintro ⟨m, hm, hobservable⟩
    obtain ⟨n, i, line, hm, done, a, rest, hsplit, hi, hn⟩ := mem_moves_iff.1 hm
    have hname := marker_of_mem_instructionMoves hm (.inr (by rw [hobservable]; rfl))
    rw [instructionMoves_of_marker hname] at hm
    rcases hname with hname | hname
    · rw [markerMoves] at hm
      split at hm
      · exact absurd hm List.not_mem_nil
      · rw [if_pos hname, List.mem_singleton] at hm
        rw [hm] at hobservable
        cases hobservable
    · obtain ⟨numbers, hnumbers, ⟨-, rfl⟩ | ⟨v, hv, rfl⟩⟩ :=
        detector_or_observable_of_markerMoves hm
      · cases hobservable
      · cases hobservable
        exact ⟨n, i, ⟨done, a, rest, line, hsplit, hi, hn⟩, hname, hv, hnumbers⟩
  · rintro ⟨n, i, ⟨done, a, rest, line, hsplit, hi, hn⟩, hname, hv, hnumbers⟩
    refine ⟨.observable e.1 i.tag line e.2, mem_moves_iff.2 ⟨n, i, line, ?_, done, a, rest, hsplit,
      hi, hn⟩, rfl⟩
    have hne : i.name ≠ detectorName := by
      rw [hname]
      decide
    rw [instructionMoves_of_marker (.inr hname), markerMoves, hnumbers]
    simp [hne, hv]

/-- There are at most as many accepted detectors as executed instructions for one. -/
theorem length_detectors_le (ctx : Context) (acts : List Act) :
    ((moves ctx acts).filterMap Move.detector?).length ≤ acts.countP (Act.isFor detectorName) := by
  induction acts using List.reverseRecOn with
  | nil => exact Nat.le_refl _
  | append_singleton acts a ih =>
      rw [moves_concat, List.filterMap_append, List.length_append, List.countP_append]
      refine Nat.add_le_add ih ?_
      generalize (moves ctx acts).countP Move.measures = n
      cases hi : a.instruction? with
      | none =>
          rw [moves_of_none hi]
          exact Nat.zero_le _
      | some entry =>
          obtain ⟨line, i⟩ := entry
          rw [moves_of_instruction hi]
          by_cases hname : i.name = detectorName
          · rw [instructionMoves_of_marker (.inl hname), markerMoves]
            cases recordNumbers? n i.targets with
            | none => exact Nat.zero_le _
            | some numbers => simp [hname, Act.isFor, hi, Move.detector?]
          · have hnone : (instructionMoves ctx n line i).filterMap Move.detector? = [] := by
              rw [List.filterMap_eq_nil_iff]
              intro m hm
              by_contra hdetector
              have hmarker := marker_of_mem_instructionMoves hm
                (.inl (Option.isSome_iff_ne_none.2 hdetector))
              rw [instructionMoves_of_marker hmarker] at hm
              obtain ⟨_, -, ⟨hname', -⟩ | ⟨v, -, hobservable⟩⟩ :=
                detector_or_observable_of_markerMoves hm
              · exact hname hname'
              · exact hdetector (by rw [hobservable]; rfl)
            rw [hnone]
            exact Nat.zero_le _

theorem length_stage {ops : List Operation} (h : ∀ op ∈ ops, op.targets ≠ []) (k : Nat) :
    (stage k ops).length = total (ops.map Operation.measurements) := by
  induction ops with
  | nil => rfl
  | cons op rest ih =>
      have hrest := ih fun op' hop' => h op' (List.mem_cons_of_mem _ hop')
      obtain ⟨q, more, htargets⟩ := List.exists_cons_of_ne_nil (h op List.mem_cons_self)
      have hsplit : stage k (op :: rest) = stage k [op] ++ stage k rest :=
        stage_append k [op] rest
      rw [hsplit, List.length_append, hrest, List.map_cons, total]
      congr 1
      cases hmeasures : op.isMeasurement <;>
        simp [stage, hmeasures, htargets, Operation.measurements]

theorem length_recordFrom {layers : List Layer}
    (h : ∀ l ∈ layers, ∀ op ∈ l.operations.toList, op.targets ≠ []) (k : Nat) :
    (recordFrom k (layers.map (·.operations.toList))).length =
      total (layers.map Layer.measurements) := by
  induction layers generalizing k with
  | nil => rfl
  | cons l rest ih =>
      rw [List.map_cons, recordFrom, List.length_append, length_stage (h l List.mem_cons_self),
        ih fun l' hl' => h l' (List.mem_cons_of_mem _ hl')]
      rfl

/-- The record of a parsed circuit has as many entries as the circuit has measurements. -/
theorem length_record_parse (text : String) :
    (Circuit.recordIn .placement 0 (parse text).circuit.layers).length =
      (parse text).circuit.measurements :=
  length_recordFrom (fun _ hl op hop =>
    ((sound_parse text hl).placeable op hop).targets_ne_nil) 0

theorem size_record_tapeOf (text : String) :
    (tapeOf text).record.size = (parse text).circuit.measurements := by
  rw [← length_record_parse, ← List.length_map (·.1), record_parse, Array.length_toList]

theorem isWhole_cases {x : Binary64} (h : x.isWhole) (hx : x.compare? .zero ≠ some .lt) :
    x.isFinite ∧ ∃ n : Nat, x.toRat = n := by
  cases x with
  | nan s => cases h
  | infinite s => cases h
  | finite s m e hc =>
      refine ⟨rfl, ?_⟩
      have hden : (Binary.finite s m e hc).toRat.den = 1 := by simpa [Binary.isWhole] using h
      have hzero : (Binary.zero : Binary64).toRat = 0 := by
        rw [Binary.zero, Binary.toRat_finite]
        simp
      have hnonneg : 0 ≤ (Binary.finite s m e hc).toRat := by
        by_contra hneg
        rw [not_le] at hneg
        have hcompare : (Binary.finite s m e hc).compare? .zero = some .lt := by
          simp only [Binary.compare?, Binary.zero]
          rw [if_pos (by rw [Binary.zero] at hzero; rw [hzero]; exact hneg)]
        exact hx hcompare
      obtain ⟨n, hn⟩ := Int.eq_ofNat_of_zero_le (Rat.num_nonneg.2 hnonneg)
      refine ⟨n, ?_⟩
      rw [← Rat.num_div_den (Binary.finite s m e hc).toRat, hden, hn]
      simp

/-- The index of an observable is a natural number. -/
theorem observableIndex?_nat {i : Instruction} {x : Binary64} (h : observableIndex? i = some x) :
    x.isFinite ∧ ∃ n : Nat, x.toRat = n := by
  unfold observableIndex? at h
  split at h
  · cases h
    refine ⟨rfl, 0, ?_⟩
    rw [Binary.zero, Binary.toRat_finite]
    simp
  · split at h
    · rename_i hgood
      cases h
      rw [Bool.and_eq_true, bne_iff_ne] at hgood
      exact isWhole_cases hgood.1 hgood.2
    · cases h

/-- An index is kept as it is if single precision holds it and its digits are not cut off. -/
theorem observableSlot_of_holds {x : Binary64} (hx : x.isFinite) {n : Nat} (hn : x.toRat = n)
    (hheld : Format.binary32.Holds n) (hlt : n < indexModulus) : observableSlot x = n := by
  obtain ⟨hfinite, hval⟩ := Binary.toRat_convert Format.ample_binary32 hx hn hheld
  rw [indexModulus] at hlt
  rw [observableSlot, Binary.nearestNat_of_toRat hfinite hval
    (by rw [maxSlot]; omega), indexModulus]
  omega

theorem observableSlot_eq {x : Binary64} (hx : x.isFinite) {n : Nat} (hn : x.toRat = n)
    (hlt : n < 2 ^ 24) : observableSlot x = n :=
  observableSlot_of_holds hx hn (Format.ample_binary32.holds hlt) (hlt.trans (by decide))

theorem detectorSlot_eq {d : Nat} (hlt : d < 2 ^ 24) :
    (Binary.ofNat .binary32 d).nearestNat maxSlot = d := by
  obtain ⟨hfinite, hval⟩ := Binary.toRat_ofNat Format.ample_binary32 hlt
  exact Binary.nearestNat_of_toRat hfinite hval (by rw [maxSlot]; omega)

/-- The measurements at the sites of some numbers have these numbers. -/
theorem exists_measurementAt_iff {text : String} {numbers : List Nat}
    (h : ∀ x ∈ numbers, x < (tapeOf text).record.size) {P : Nat → Prop} :
    (∃ site ∈ (tapeOf text).sitesOf numbers, ∃ m,
      Circuit.measurementAt .placement (parse text).circuit.layers site = some m ∧ P m.number) ↔
      ∃ x ∈ numbers, P x := by
  constructor
  · rintro ⟨site, hsite, m, hm, hP⟩
    obtain ⟨x, hx, hrecord⟩ := List.mem_filterMap.1 hsite
    obtain ⟨m', hm', hnumber⟩ := measurementAt_of_record text hrecord
    rw [hm] at hm'
    cases hm'
    exact ⟨x, hx, hnumber ▸ hP⟩
  · rintro ⟨x, hx, hP⟩
    have hrecord := Array.getElem?_eq_getElem (h x hx)
    obtain ⟨m, hm, hnumber⟩ := measurementAt_of_record text hrecord
    exact ⟨_, List.mem_filterMap.2 ⟨x, hx, hrecord⟩, m, hm, hnumber ▸ hP⟩

theorem mem_foundAt {order : RecordOrder} {layers : List Layer} {sites : List Site}
    (h : ∀ site ∈ sites, site.layer < layers.length) {m : Measured} :
    m ∈ Circuit.foundAt order layers sites ↔
      ∃ site ∈ sites, Circuit.measurementAt order layers site = some m := by
  have hperm := Circuit.byLayer_perm Site.layer h
  rw [Circuit.foundAt, List.mem_filterMap]
  simp only [hperm.mem_iff]

theorem mem_offsets_detectorAt {text : String} {numbers : List Nat}
    (h : ∀ x ∈ numbers, x < (tapeOf text).record.size) {o : Int} :
    o ∈ (Circuit.detectorAt .placement (parse text).circuit.layers
        ((tapeOf text).sitesOf numbers)).offsets ↔
      ∃ x ∈ numbers, o = (x : Int) - (parse text).circuit.measurements := by
  rw [← exists_measurementAt_iff h, Circuit.detectorAt, Circuit.mem_offsets,
    length_record_parse]
  constructor
  · rintro ⟨m, hm, ho⟩
    obtain ⟨site, hsite, hat⟩ := (mem_foundAt fun _ => layer_lt_of_mem_sitesOf text).1 hm
    exact ⟨site, hsite, m, hat, ho⟩
  · rintro ⟨site, hsite, m, hat, ho⟩
    exact ⟨m, (mem_foundAt fun _ => layer_lt_of_mem_sitesOf text).2 ⟨site, hsite, hat⟩, ho⟩

/-- The offsets that the targets of an instruction behind `n` measurements denote. -/
def Denotes (total n : Nat) (i : Instruction) (o : Int) : Prop :=
  ∃ k : Nat, .record (-k) ∈ i.targets ∧ o = (n : Int) - k - total

theorem exists_number_iff {n total : Nat} {i : Instruction} {numbers : List Nat}
    (h : recordNumbers? n i.targets = some numbers) {o : Int} :
    (∃ x ∈ numbers, o = (x : Int) - total) ↔ Denotes total n i o := by
  obtain ⟨hall, hmem⟩ := recordNumbers?_eq_some h
  constructor
  · rintro ⟨x, hx, rfl⟩
    obtain ⟨k, hk, -, hle, rfl⟩ := (hmem x).1 hx
    exact ⟨k, hk, by omega⟩
  · rintro ⟨k, hk, rfl⟩
    obtain ⟨k', hpos, hle, heq⟩ := hall _ hk
    have hsame : -(k : Int) = -(k' : Int) := Target.record.inj heq
    exact ⟨n - k, (hmem _).2 ⟨k, hk, by omega, by omega, rfl⟩, by omega⟩

/-- An accepted observable of the given index. -/
def AcceptedObservable (acts : List Act) (v n : Nat) (i : Instruction) : Prop :=
  Executed .standard acts n i ∧ i.name = observableName ∧ Accepted n i ∧
    ∃ x, observableIndex? i = some x ∧ x.toRat = v

/-- What an executed instruction names has been recorded. -/
theorem numbers_lt_of_executed {text : String} {n : Nat} {i : Instruction} {numbers : List Nat}
    (h : Executed .standard (course .standard (Source.normalize text.toList)) n i)
    (hread : recordNumbers? n i.targets = some numbers) :
    ∀ x ∈ numbers, x < (tapeOf text).record.size := by
  intro x hx
  obtain ⟨done, a, rest, line, hsplit, -, rfl⟩ := h
  have hgrounded : ∀ m ∈ movesOf text, m.Grounded := fun m => grounded_of_mem_moves
  have hsize := record_size_foldl .standard hgrounded {}
  have hmoves : movesOf text = moves .standard (done ++ a :: rest) := by rw [← hsplit, movesOf]
  rw [tapeOf, Tape.after, hsize, hmoves, moves, movesFrom_append, List.countP_append]
  have hlt := recordNumbers?_lt hread x hx
  rw [moves] at hlt
  omega

theorem sitesOf_eq_nil_iff {text : String} {numbers : List Nat}
    (h : ∀ x ∈ numbers, x < (tapeOf text).record.size) :
    (tapeOf text).sitesOf numbers = [] ↔ numbers = [] := by
  rw [Tape.sitesOf, List.filterMap_eq_nil_iff]
  constructor
  · intro hnone
    rw [List.eq_nil_iff_forall_not_mem]
    intro x hx
    have hsome := hnone x hx
    rw [Array.getElem?_eq_getElem (h x hx)] at hsome
    cases hsome
  · rintro rfl
    exact fun x hx => absurd hx List.not_mem_nil

/-- The offsets collected for detectors are those that the accepted detectors denote. -/
theorem mem_collected_detectors {text : String} {os : List Int} :
    (∃ sites ∈ detectorSites text, sites ≠ [] ∧
      (Circuit.detectorAt .placement (parse text).circuit.layers sites).offsets = os) ↔
      os ≠ [] ∧ os.Pairwise (· > ·) ∧ ∃ n i,
        Executed .standard (course .standard (Source.normalize text.toList)) n i ∧
          i.name = detectorName ∧ Accepted n i ∧
            ∀ o, o ∈ os ↔ Denotes (parse text).circuit.measurements n i o := by
  constructor
  · rintro ⟨sites, hsites, hne, rfl⟩
    obtain ⟨numbers, hnumbers, rfl⟩ := List.mem_map.1 hsites
    obtain ⟨n, i, hexecuted, hname, hread⟩ := mem_detectors_iff.1 hnumbers
    have hlt := numbers_lt_of_executed hexecuted hread
    rw [Ne, sitesOf_eq_nil_iff hlt] at hne
    obtain ⟨x, rest, rfl⟩ := List.exists_cons_of_ne_nil hne
    refine ⟨?_, Circuit.descending_pairwise _, n, i, hexecuted, hname,
      (recordNumbers?_eq_some hread).1, fun o => ?_⟩
    · have hmem := (mem_offsets_detectorAt hlt).2 ⟨x, List.mem_cons_self, rfl⟩
      exact List.ne_nil_of_mem hmem
    · rw [mem_offsets_detectorAt hlt, exists_number_iff hread]
  · rintro ⟨hne, hpairwise, n, i, hexecuted, hname, haccepted, hmem⟩
    obtain ⟨numbers, hread⟩ := recordNumbers?_isSome haccepted
    have hnumbers : numbers ∈ (movesOf text).filterMap Move.detector? :=
      mem_detectors_iff.2 ⟨n, i, hexecuted, hname, hread⟩
    have hlt := numbers_lt_of_executed hexecuted hread
    refine ⟨_, List.mem_map_of_mem hnumbers, ?_, ?_⟩
    · obtain ⟨o, rest, rfl⟩ := List.exists_cons_of_ne_nil hne
      obtain ⟨x, hx, -⟩ := (exists_number_iff hread).2 ((hmem o).1 List.mem_cons_self)
      rw [Ne, sitesOf_eq_nil_iff hlt]
      exact List.ne_nil_of_mem hx
    · exact Circuit.eq_of_descending (Circuit.descending_pairwise _) hpairwise fun o => by
        rw [hmem, ← exists_number_iff hread, ← mem_offsets_detectorAt hlt]

/-- The moves of observables in a slot are the accepted observables of that index. -/
theorem exists_observable_iff {text : String}
    (h : ∀ n i x, Executed .standard (course .standard (Source.normalize text.toList)) n i →
      i.name = observableName → observableIndex? i = some x → x.toRat < 2 ^ 24)
    {v : Nat} {P : List Nat → Prop} :
    (∃ e ∈ (movesOf text).filterMap Move.observable?, observableSlot e.1 = v ∧ P e.2) ↔
      ∃ n i numbers,
        AcceptedObservable (course .standard (Source.normalize text.toList)) v n i ∧
          recordNumbers? n i.targets = some numbers ∧ P numbers := by
  have hslot {n : Nat} {i : Instruction} {x : Binary64}
      (hexecuted : Executed .standard (course .standard (Source.normalize text.toList)) n i)
      (hname : i.name = observableName) (hx : observableIndex? i = some x) :
      observableSlot x = v ↔ x.toRat = v := by
    obtain ⟨hfinite, k, hk⟩ := observableIndex?_nat hx
    have hlt := h n i x hexecuted hname hx
    rw [hk] at hlt ⊢
    rw [observableSlot_eq hfinite hk (by exact_mod_cast hlt)]
    exact_mod_cast Iff.rfl
  constructor
  · rintro ⟨e, he, hv, hP⟩
    obtain ⟨n, i, hexecuted, hname, hx, hread⟩ := mem_observables_iff.1 he
    exact ⟨n, i, e.2, ⟨hexecuted, hname, (recordNumbers?_eq_some hread).1, e.1, hx,
      (hslot hexecuted hname hx).1 hv⟩, hread, hP⟩
  · rintro ⟨n, i, numbers, ⟨hexecuted, hname, -, x, hx, hv⟩, hread, hP⟩
    exact ⟨(x, numbers), mem_observables_iff.2 ⟨n, i, hexecuted, hname, hx, hread⟩,
      (hslot hexecuted hname hx).2 hv, hP⟩

theorem numbers_eq_nil_iff {n : Nat} {ts : List Target} {numbers : List Nat}
    (h : recordNumbers? n ts = some numbers) : numbers = [] ↔ ts = [] := by
  cases ts with
  | nil =>
      cases h
      exact ⟨fun _ => rfl, fun _ => rfl⟩
  | cons t rest =>
      rw [recordNumbers?, Option.bind_eq_some_iff] at h
      obtain ⟨y, -, h⟩ := h
      obtain ⟨more, -, rfl⟩ := Option.map_eq_some_iff.1 h
      exact iff_of_false (List.cons_ne_nil _ _) (List.cons_ne_nil _ _)

/-- Collecting gives back exactly what was accepted. With `total` measurements in the circuit,
`rec[-k]` behind `n` measurements denotes the offset `n - k - total`: the detectors are the distinct
sets of offsets that accepted detectors denote, and the observables are, index by index, the unions
of those that accepted observables denote. -/
theorem parse_collects_accepted (text : String)
    (hdetectors : (course .standard (Source.normalize text.toList)).countP
      (Act.isFor detectorName) < 2 ^ 24)
    (hobservables : ∀ n i x,
      Executed .standard (course .standard (Source.normalize text.toList)) n i →
        i.name = observableName → observableIndex? i = some x → x.toRat < 2 ^ 24) :
    let acts := course .standard (Source.normalize text.toList)
    let total := (parse text).circuit.measurements
    let collected := (parse text).circuit.detectors .placement
    ((collected.detectors.map (·.offsets)).Nodup ∧
      (∀ d ∈ collected.detectors, d.offsets.Pairwise (· > ·)) ∧
      collected.detectors.Pairwise (fun a b => a.offsets.headD 0 ≤ b.offsets.headD 0) ∧
      ∀ os : List Int, os ∈ collected.detectors.map (·.offsets) ↔
        os ≠ [] ∧ os.Pairwise (· > ·) ∧ ∃ n i, Executed .standard acts n i ∧
          i.name = detectorName ∧ Accepted n i ∧ ∀ o, o ∈ os ↔ Denotes total n i o) ∧
    (collected.observables.Pairwise (fun a b => a.1 < b.1) ∧
      ∀ v os, (v, os) ∈ collected.observables ↔
        (∃ n i, AcceptedObservable acts v n i ∧ i.targets ≠ []) ∧ os.Pairwise (· > ·) ∧
          ∀ o, o ∈ os ↔ ∃ n i, AcceptedObservable acts v n i ∧ Denotes total n i o) := by
  intro acts total collected
  have hslots : ∀ d < (detectorSites text).length,
      (Binary.ofNat .binary32 d).nearestNat maxSlot = d := by
    intro d hd
    rw [detectorSites, List.length_map] at hd
    have hle := length_detectors_le .standard (course .standard (Source.normalize text.toList))
    exact detectorSlot_eq (hd.trans_le hle |>.trans hdetectors)
  have hcollected := detectors_parse (separated_parse text) (retrieved_placement text) hslots
  have hmem (d : Detector) : d ∈ collected.detectors →
      ∃ sites, d = Circuit.detectorAt .placement (parse text).circuit.layers sites := by
    intro hd
    rw [hcollected, List.mem_mergeSort] at hd
    obtain ⟨sites, -, rfl⟩ := List.mem_map.1 ((eraseDupsBy_sublist _ _).subset hd)
    exact ⟨sites, rfl⟩
  have hoffsets : (collected.detectors.map (·.offsets)).Perm
      ((((detectorSites text).filter (!·.isEmpty)).map
        (Circuit.detectorAt .placement (parse text).circuit.layers)).map
          (·.offsets)).eraseDups := by
    rw [hcollected, ← map_eraseDupsBy]
    exact (List.mergeSort_perm _ _).map _
  refine ⟨⟨?_, ?_, ?_, fun os => ?_⟩, pairwise_observables, fun v os => ?_⟩
  · exact hoffsets.nodup_iff.2 (nodup_eraseDups _)
  · intro d hd
    obtain ⟨sites, rfl⟩ := hmem d hd
    exact Circuit.descending_pairwise _
  · rw [hcollected]
    refine (List.pairwise_mergeSort ?_ ?_ _).imp fun hab => of_decide_eq_true hab
    · intro a b c hab hbc
      exact decide_eq_true ((of_decide_eq_true hab).trans (of_decide_eq_true hbc))
    · intro a b
      rw [Bool.or_eq_true, decide_eq_true_iff, decide_eq_true_iff]
      exact Int.le_total _ _
  · rw [hoffsets.mem_iff, List.mem_eraseDups, ← mem_collected_detectors]
    simp only [List.mem_map, List.mem_filter, Bool.not_eq_true', List.isEmpty_eq_false_iff]
    constructor
    · rintro ⟨-, ⟨sites, ⟨hsites, hne⟩, rfl⟩, rfl⟩
      exact ⟨sites, hsites, hne, rfl⟩
    · rintro ⟨sites, hsites, hne, rfl⟩
      exact ⟨_, ⟨sites, ⟨hsites, hne⟩, rfl⟩, rfl⟩
  · rw [mem_observables_parse (separated_parse text), length_record_parse]
    refine and_congr ?_ (and_congr_right fun _ => forall_congr' fun o => ?_)
    · rw [exists_observable_iff hobservables (P := fun numbers =>
        (tapeOf text).sitesOf numbers ≠ [])]
      constructor
      · rintro ⟨n, i, numbers, haccepted, hread, hne⟩
        have hlt := numbers_lt_of_executed haccepted.1 hread
        rw [Ne, sitesOf_eq_nil_iff hlt, numbers_eq_nil_iff hread] at hne
        exact ⟨n, i, haccepted, hne⟩
      · rintro ⟨n, i, haccepted, hne⟩
        obtain ⟨numbers, hread⟩ := recordNumbers?_isSome haccepted.2.2.1
        have hlt := numbers_lt_of_executed haccepted.1 hread
        refine ⟨n, i, numbers, haccepted, hread, ?_⟩
        rw [Ne, sitesOf_eq_nil_iff hlt, numbers_eq_nil_iff hread]
        exact hne
    · rw [exists_observable_iff hobservables (P := fun numbers =>
        ∃ site ∈ (tapeOf text).sitesOf numbers, ∃ m,
          Circuit.measurementAt .placement (parse text).circuit.layers site = some m ∧
            o = (m.number : Int) - (parse text).circuit.measurements)]
      refine iff_congr Iff.rfl ?_
      constructor
      · rintro ⟨n, i, numbers, haccepted, hread, hfound⟩
        have hlt := numbers_lt_of_executed haccepted.1 hread
        rw [exists_measurementAt_iff hlt
          (P := fun x => o = (x : Int) - (parse text).circuit.measurements),
          exists_number_iff hread] at hfound
        exact ⟨n, i, haccepted, hfound⟩
      · rintro ⟨n, i, haccepted, hdenotes⟩
        obtain ⟨numbers, hread⟩ := recordNumbers?_isSome haccepted.2.2.1
        have hlt := numbers_lt_of_executed haccepted.1 hread
        refine ⟨n, i, numbers, haccepted, hread, ?_⟩
        rw [exists_measurementAt_iff hlt
          (P := fun x => o = (x : Int) - (parse text).circuit.measurements),
          exists_number_iff hread]
        exact hdenotes

/-- Two measurements, a detector over both and an observable over the later one. -/
theorem collected_pair :
    let text := "M 0 1\nDETECTOR rec[-2] rec[-1]\nOBSERVABLE_INCLUDE(3) rec[-1]"
    let collected := (parse text).circuit.detectors .placement
    [-1, -2] ∈ collected.detectors.map (·.offsets) ∧
      collected.observables.Pairwise (fun a b => a.1 < b.1) := by
  intro text collected
  have hobservables : ∀ a ∈ course .standard (Source.normalize text.toList),
      ∀ e ∈ a.instruction?, ∀ x ∈ observableIndex? e.2, x.toRat < 2 ^ 24 := by
    decide +kernel
  obtain ⟨⟨-, -, -, hmem⟩, hindices, -⟩ := parse_collects_accepted text (by decide +kernel) (by
    rintro n i x ⟨done, a, rest, line, hsplit, hi, -⟩ - hx
    have ha : a ∈ course .standard (Source.normalize text.toList) := by
      rw [hsplit]
      exact List.mem_append_right _ List.mem_cons_self
    exact hobservables a ha _ hi x hx)
  have hexecuted : Executed .standard (course .standard (Source.normalize text.toList)) 2
      ⟨"DETECTOR", "", [], [.record (-2), .record (-1)]⟩ :=
    executed_of_getElem? 1 2 (by decide +kernel) (by decide +kernel)
  have htotal : (parse text).circuit.measurements = 2 := by decide +kernel
  refine ⟨(hmem _).2 ⟨by decide, by decide, 2, _, hexecuted, rfl, ?_, fun o => ?_⟩, hindices⟩
  · intro t ht
    rcases List.mem_pair.1 ht with rfl | rfl
    · exact ⟨2, by omega, by omega, rfl⟩
    · exact ⟨1, by omega, by omega, rfl⟩
  · rw [htotal, List.mem_pair]
    constructor
    · rintro (rfl | rfl)
      · exact ⟨1, by simp, rfl⟩
      · exact ⟨2, by simp, rfl⟩
    · rintro ⟨k, hk, rfl⟩
      rcases List.mem_pair.1 hk with heq | heq
      · have hsame : -(k : Int) = -2 := Target.record.inj heq
        omega
      · have hsame : -(k : Int) = -1 := Target.record.inj heq
        omega

end Build

end StimOverlay
