import StimOverlay.Proofs.Layer.LayeredRuns

/-! The record and the marks of a run. The record lists the measurements of the layers in order, so
that a position in the record and a place in the layers determine each other; and the markers of a
layer are the marks that the run made on it, in the order in which it made them. -/

namespace StimOverlay

namespace Build

open Operation

/-- The measurements among the operations of the layer at position `k`: the site of each, and the
qubits it acts on. -/
def stage (k : Nat) (ops : List Operation) : List (Site × List QubitId) :=
  (ops.filter Operation.isMeasurement).filterMap fun op =>
    op.targets.head?.map fun q => (⟨k, q⟩, op.targets)

/-- The measurements of consecutive layers, the first of which stands at position `k`. -/
def recordFrom (k : Nat) : List (List Operation) → List (Site × List QubitId)
  | [] => []
  | ops :: rest => stage k ops ++ recordFrom (k + 1) rest

theorem stage_append (k : Nat) (xs ys : List Operation) :
    stage k (xs ++ ys) = stage k xs ++ stage k ys := by
  simp only [stage, List.filter_append, List.filterMap_append]

@[simp] theorem stage_nil (k : Nat) : stage k [] = [] := rfl

theorem recordFrom_append (k : Nat) (xs ys : List (List Operation)) :
    recordFrom k (xs ++ ys) = recordFrom k xs ++ recordFrom (k + xs.length) ys := by
  induction xs generalizing k with
  | nil => rfl
  | cons ops rest ih =>
      rw [List.cons_append, recordFrom, recordFrom, ih, List.append_assoc, List.length_cons,
        Nat.add_assoc, Nat.add_comm 1]

@[simp] theorem recordFrom_singleton (k : Nat) (ops : List Operation) :
    recordFrom k [ops] = stage k ops := by
  simp only [recordFrom, List.append_nil]

theorem mem_stage {k : Nat} {ops : List Operation} {e : Site × List QubitId} :
    e ∈ stage k ops ↔ ∃ op ∈ ops, op.isMeasurement ∧ op.targets.head? = some e.1.qubit ∧
      e.1.layer = k ∧ e.2 = op.targets := by
  simp only [stage, List.mem_filterMap, List.mem_filter, Option.map_eq_some_iff]
  constructor
  · rintro ⟨op, ⟨hop, hmeasures⟩, q, hq, rfl⟩
    exact ⟨op, hop, hmeasures, hq, rfl, rfl⟩
  · rintro ⟨op, hop, hmeasures, hq, rfl, htargets⟩
    exact ⟨op, ⟨hop, hmeasures⟩, e.1.qubit, hq, by rw [← htargets]⟩

theorem mem_recordFrom {k : Nat} {layers : List (List Operation)} {e : Site × List QubitId} :
    e ∈ recordFrom k layers ↔
      k ≤ e.1.layer ∧ ∃ ops, layers[e.1.layer - k]? = some ops ∧ e ∈ stage e.1.layer ops := by
  induction layers generalizing k with
  | nil => simp [recordFrom]
  | cons ops rest ih =>
      rw [recordFrom, List.mem_append, ih]
      constructor
      · rintro (he | ⟨hk, ops', hops, he⟩)
        · obtain ⟨-, -, -, -, hlayer, -⟩ := mem_stage.1 he
          subst hlayer
          exact ⟨Nat.le_refl _, ops, by rw [Nat.sub_self]; rfl, he⟩
        · refine ⟨by omega, ops', ?_, he⟩
          rw [show e.1.layer - k = e.1.layer - (k + 1) + 1 by omega]
          exact hops
      · rintro ⟨hk, ops', hops, he⟩
        by_cases hlayer : e.1.layer = k
        · rw [hlayer, Nat.sub_self] at hops
          cases hops
          exact .inl (hlayer ▸ he)
        · refine .inr ⟨by omega, ops', ?_, he⟩
          rw [show e.1.layer - k = e.1.layer - (k + 1) + 1 by omega] at hops
          exact hops

end Build

namespace Schedule

/-- The markers of each layer. -/
def markers (s : Schedule) : List (List Operation) := s.toList.map (·.markers.toList)

theorem markers_eq (s : Schedule) :
    s.markers = s.finished.toList.map (·.markers.toList) ++ [s.current.markers.toList] := by
  simp [markers, toList]

/-- The markers of the layer at position `k`; none if there is no such layer. -/
def markersAt (s : Schedule) (k : Nat) : List Operation := s.markers[k]?.getD []

@[simp] theorem size_modify (s : Schedule) (k : Nat) (f : Layer → Layer) :
    (s.modify k f).size = s.size := by
  rw [← length_toList, toList_modify, List.length_modify, length_toList]

theorem position_lt_size (s : Schedule) : s.position < s.size := Nat.lt_succ_self _

theorem markersAt_modify_mark (s : Schedule) {k : Nat} (hk : k < s.size) (op : Operation)
    (j : Nat) :
    (s.modify k (·.mark op)).markersAt j = s.markersAt j ++ if k = j then [op] else [] := by
  unfold markersAt markers
  rw [toList_modify, List.getElem?_map, List.getElem?_map, List.getElem?_modify]
  cases hl : s.toList[j]? with
  | none =>
      have hj : s.size ≤ j := by
        rw [← length_toList]
        exact List.getElem?_eq_none_iff.1 hl
      rw [if_neg (by omega : k ≠ j)]
      rfl
  | some l =>
      by_cases h : k = j
      · simp [h, Layer.mark]
      · simp [h]

end Schedule

namespace Build

open Operation

namespace Tape

/-- The marks that a move makes, each with the layer that it belongs to. -/
def stamps (ctx : Context) (t : Tape) : Move → List (Nat × Operation)
  | .tick => []
  | .place op => if op.gate.isMarker then [(t.schedule.position, op)] else []
  | .mark op => [(t.schedule.position, op)]
  | .detector tag line numbers =>
      t.marks (ctx.catalog.gate? detectorName) tag (.ofNat .binary32 t.detectors) line numbers
  | .observable index tag line numbers =>
      t.marks (ctx.catalog.gate? observableName) tag (index.convert .binary32) line numbers

/-- The marks that further moves make. -/
def stampsFrom (ctx : Context) (t : Tape) : List Move → List (Nat × Operation)
  | [] => []
  | m :: rest => t.stamps ctx m ++ stampsFrom ctx (t.move ctx m) rest

theorem stampsFrom_append (ctx : Context) (t : Tape) (xs ys : List Move) :
    stampsFrom ctx t (xs ++ ys) =
      stampsFrom ctx t xs ++ stampsFrom ctx (xs.foldl (move ctx) t) ys := by
  induction xs generalizing t with
  | nil => rfl
  | cons m rest ih => rw [List.cons_append, stampsFrom, stampsFrom, ih, List.append_assoc]; rfl

/-- All marks of a run. -/
def stampsOf (ctx : Context) (ms : List Move) : List (Nat × Operation) := stampsFrom ctx {} ms

theorem stampsOf_concat (ctx : Context) (ms : List Move) (m : Move) :
    stampsOf ctx (ms ++ [m]) = stampsOf ctx ms ++ (Tape.after ctx ms).stamps ctx m := by
  rw [stampsOf, stampsFrom_append]
  simp only [stampsFrom, List.append_nil]
  rfl

end Tape

/-- The record numbers that a detector names. -/
def Move.detector? : Move → Option (List Nat)
  | .detector _ _ numbers => some numbers
  | _ => none

/-- The index of an observable, with the record numbers that it names. -/
def Move.observable? : Move → Option (Numeric.Binary64 × List Nat)
  | .observable index _ _ numbers => some (index, numbers)
  | _ => none

/-- What the record and the markers of a tape say about the moves that led to it. -/
structure Tape.Recorded (ms : List Move) (t : Tape) : Prop where
  record : t.record.toList = (recordFrom 0 t.schedule.operations).map (·.1)
  detectors : t.detectors = (ms.filterMap Move.detector?).length
  markers : ∀ k, t.schedule.markersAt k =
    ((stampsOf .standard ms).filter (·.1 == k)).map (·.2)

namespace Tape

theorem recorded_start : Recorded [] {} where
  record := rfl
  detectors := rfl
  markers k := by
    unfold Schedule.markersAt
    cases k with
    | zero => rfl
    | succ k => rfl

theorem layer_lt_of_mem_record {t : Tape}
    (h : t.record.toList = (recordFrom 0 t.schedule.operations).map (·.1)) {site : Site}
    (hsite : site ∈ t.record.toList) : site.layer < t.schedule.size := by
  rw [h] at hsite
  obtain ⟨e, he, rfl⟩ := List.mem_map.1 hsite
  obtain ⟨-, ops, hops, -⟩ := mem_recordFrom.1 he
  have hlt := (List.getElem?_eq_some_iff.1 hops).1
  rwa [Schedule.operations, List.length_map, Schedule.length_toList, Nat.sub_zero] at hlt

theorem mem_marks {t : Tape} {gate : Option Gate} {tag : String} {index : Numeric.Binary32}
    {line : Nat} {numbers : List Nat} {e : Nat × Operation} :
    e ∈ t.marks gate tag index line numbers ↔ ∃ g, gate = some g ∧ ∃ k ∈ numbers, ∃ site,
      t.record[k]? = some site ∧
        e = (site.layer, .onQubit g tag [index] site.qubit line) := by
  simp only [marks, List.mem_flatMap, List.mem_map, List.mem_filterMap, Option.mem_toList]
  constructor
  · rintro ⟨g, hg, site, ⟨k, hk, hsite⟩, rfl⟩
    exact ⟨g, hg, k, hk, site, hsite, rfl⟩
  · rintro ⟨g, hg, k, hk, site, hsite, rfl⟩
    exact ⟨g, hg, site, ⟨k, hk, hsite⟩, rfl⟩

theorem markersAt_markAll {t : Tape} {marks : List (Nat × Operation)}
    (hmarks : ∀ e ∈ marks, e.1 < t.schedule.size) (k : Nat) :
    (t.markAll marks).schedule.markersAt k =
      t.schedule.markersAt k ++ (marks.filter (·.1 == k)).map (·.2) := by
  unfold markAll
  dsimp only
  generalize t.schedule = s at hmarks
  induction marks generalizing s with
  | nil => simp
  | cons e rest ih =>
      have hrest : ∀ e' ∈ rest, e'.1 < (s.modify e.1 (·.mark e.2)).size := fun e' he' => by
        rw [Schedule.size_modify]
        exact hmarks e' (List.mem_cons_of_mem _ he')
      rw [List.foldl_cons, ih _ hrest,
        Schedule.markersAt_modify_mark s (hmarks e List.mem_cons_self), List.append_assoc,
        List.filter_cons]
      by_cases hk : e.1 = k <;> simp [hk]

theorem markersAt_advance (s : Schedule) {l : Layer} (hl : l.markers = #[]) (k : Nat) :
    (s.advance l).markersAt k = s.markersAt k := by
  have hmarkers : (s.advance l).markers = s.markers ++ [[]] := by
    simp [Schedule.markers, hl]
  unfold Schedule.markersAt
  rw [hmarkers, List.getElem?_append]
  split
  · rfl
  · rename_i hk
    rw [List.getElem?_eq_none (Nat.le_of_not_lt hk)]
    cases k - s.markers.length <;> rfl

theorem isMeasurement_of_isMarker {op : Operation} (h : op.gate.isMarker) :
    op.isMeasurement = false := by
  have hrole : op.gate.role = .marker := of_decide_eq_true h
  simp [Operation.isMeasurement, Gate.isMeasurement, hrole]

/-- The record behind a placed operation. -/
theorem record_place {t : Tape} {op : Operation} (hop : op.targets ≠ []) :
    (t.place op).record.toList =
      t.record.toList ++ (stage (t.schedule.place op).position [op]).map (·.1) := by
  obtain ⟨q, rest, htargets⟩ := List.exists_cons_of_ne_nil hop
  unfold place
  simp only [htargets]
  cases hmeasures : op.isMeasurement <;> simp [stage, hmeasures, htargets]

theorem recordFrom_place {s : Schedule} (h : s.Sound) {op : Operation}
    (hbuilt : WellBuilt .standard op) :
    recordFrom 0 (s.place op).operations =
      recordFrom 0 s.operations ++ stage (s.place op).position [op] := by
  rcases Schedule.place_cases h hbuilt with ⟨hmarker, hplace⟩ | ⟨-, -, hplace⟩ | ⟨-, -, hplace⟩
  · rw [hplace, Schedule.modifyCurrent_eq_modify, Schedule.operations_modify_mark]
    simp [stage, isMeasurement_of_isMarker hmarker]
  · have hops : (s.place op).operations = s.finished.toList.map (·.operations.toList) ++
        [s.current.operations.toList ++ [op]] := by
      simp only [hplace, Schedule.operations_eq, Layer.insert, Array.toList_push]
    rw [hops, recordFrom_append, recordFrom_singleton, stage_append, ← List.append_assoc,
      Schedule.operations_eq, recordFrom_append, recordFrom_singleton, hplace]
    simp [Schedule.position]
  · have hops : (s.place op).operations = s.operations ++ [[op]] := by
      simp [hplace, Schedule.operations, Layer.startingWith, Layer.insert, Layer.empty]
    rw [hops, recordFrom_append, recordFrom_singleton, hplace]
    simp [Schedule.operations, Schedule.position, Schedule.advance, Schedule.length_toList,
      Schedule.size]

theorem markersAt_place {t : Tape} (h : t.schedule.Sound) {op : Operation}
    (hbuilt : WellBuilt .standard op) (k : Nat) :
    (t.schedule.place op).markersAt k =
      t.schedule.markersAt k ++ ((t.stamps .standard (.place op)).filter (·.1 == k)).map (·.2) := by
  rcases Schedule.place_cases h hbuilt with
    ⟨hmarker, hplace⟩ | ⟨hop, -, hplace⟩ | ⟨hop, -, hplace⟩
  · rw [hplace, Schedule.modifyCurrent_eq_modify,
      Schedule.markersAt_modify_mark _ (Schedule.position_lt_size _)]
    simp only [stamps, hmarker, if_true]
    by_cases hk : t.schedule.position = k <;> simp [hk]
  · have hmarkers : (t.schedule.place op).markers = t.schedule.markers := by
      simp only [hplace, Schedule.markers_eq, Layer.insert]
    simp [Schedule.markersAt, hmarkers, stamps, hop.acting]
  · rw [hplace, markersAt_advance _ rfl]
    simp [stamps, hop.acting]

theorem Recorded.mark {ms : List Move} (h : Recorded ms (.after .standard ms)) {m : Move}
    {t : Tape} (hrecord : t.record = (Tape.after .standard ms).record)
    (hops : t.schedule.operations = (Tape.after .standard ms).schedule.operations)
    (hdetectors : t.detectors =
      (Tape.after .standard ms).detectors + ([m].filterMap Move.detector?).length)
    (hmarkers : ∀ k, t.schedule.markersAt k =
      (Tape.after .standard ms).schedule.markersAt k ++
        (((Tape.after .standard ms).stamps .standard m).filter (·.1 == k)).map (·.2)) :
    Recorded (ms ++ [m]) t where
  record := by rw [hrecord, hops, h.record]
  detectors := by rw [hdetectors, h.detectors, List.filterMap_append, List.length_append]
  markers k := by
    rw [hmarkers, h.markers, stampsOf_concat, List.filter_append, List.map_append]

/-- One more move keeps the record and the markers in step with the moves. -/
theorem Recorded.move {ms : List Move} (h : Recorded ms (.after .standard ms))
    (hsound : (Tape.after .standard ms).schedule.Sound) {m : Move}
    (hm : ∀ op, m = .place op → WellBuilt .standard op) :
    Recorded (ms ++ [m]) ((Tape.after .standard ms).move .standard m) := by
  have hstamps {gate : Option Gate} {tag : String} {index : Numeric.Binary32} {line : Nat}
      {numbers : List Nat} : ∀ e ∈ (Tape.after .standard ms).marks gate tag index line numbers,
      e.1 < (Tape.after .standard ms).schedule.size := by
    intro e he
    obtain ⟨-, -, k, -, site, hsite, rfl⟩ := mem_marks.1 he
    exact layer_lt_of_mem_record h.record (Array.mem_toList_iff.2 (Array.mem_of_getElem? hsite))
  cases m with
  | tick =>
      have hops : ((Tape.after .standard ms).move .standard .tick).schedule.operations =
          (Tape.after .standard ms).schedule.operations ++ [[]] := by
        simp [Tape.move, Schedule.operations, Layer.empty]
      refine ⟨?_, ?_, fun k => ?_⟩
      · rw [hops, recordFrom_append, recordFrom_singleton, stage_nil, List.append_nil]
        exact h.record
      · rw [List.filterMap_append, List.length_append]
        exact h.detectors
      · rw [stampsOf_concat]
        simp only [stamps, List.append_nil, Tape.move]
        rw [markersAt_advance _ rfl]
        exact h.markers k
  | place op =>
      have hbuilt := hm op rfl
      refine ⟨?_, ?_, fun k => ?_⟩
      · simp only [Tape.move]
        rw [record_place hbuilt.targets_ne_nil, h.record, ← List.map_append,
          ← recordFrom_place hsound hbuilt]
        rfl
      · rw [List.filterMap_append, List.length_append]
        exact h.detectors
      · rw [stampsOf_concat, List.filter_append, List.map_append, ← h.markers]
        exact markersAt_place hsound hbuilt k
  | mark op =>
      refine h.mark rfl ?_ rfl fun k => ?_
      · simp only [Tape.move]
        rw [Schedule.modifyCurrent_eq_modify, Schedule.operations_modify_mark]
      · simp only [Tape.move, stamps]
        rw [Schedule.modifyCurrent_eq_modify,
          Schedule.markersAt_modify_mark _ (Schedule.position_lt_size _)]
        by_cases hk : (Tape.after .standard ms).schedule.position = k <;> simp [hk]
  | detector tag line numbers =>
      exact h.mark rfl (operations_markAll _ _) rfl fun k => markersAt_markAll hstamps k
  | observable index tag line numbers =>
      exact h.mark rfl (operations_markAll _ _) rfl fun k => markersAt_markAll hstamps k

theorem recorded_after (ms : List Move)
    (hms : ∀ op, .place op ∈ ms → WellBuilt .standard op) :
    Recorded ms (Tape.after .standard ms) := by
  induction ms using List.reverseRecOn with
  | nil => exact recorded_start
  | append_singleton ms m ih =>
      have hbefore : ∀ op, .place op ∈ ms → WellBuilt .standard op :=
        fun op hop => hms op (List.mem_append_left _ hop)
      have hlast : ∀ op, m = .place op → WellBuilt .standard op := fun op hop =>
        hms op (List.mem_append_right _ (List.mem_singleton.2 hop.symm))
      have h := (ih hbefore).move (layered_after ms hbefore).sound hlast
      rwa [Tape.after, List.foldl_append]

end Tape

theorem recorded_tapeOf (text : String) : Tape.Recorded (movesOf text) (tapeOf text) :=
  Tape.recorded_after _ fun _ hop => wellBuilt_of_mem_movesOf hop

end Build

end StimOverlay
