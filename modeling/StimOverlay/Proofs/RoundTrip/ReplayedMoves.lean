import StimOverlay.Proofs.Emission.RegroupedActions
import StimOverlay.Proofs.Emission.SoundLines

/-! Replayed moves. The moves that written lines stand for build the layers again that the lines were
written for: what was compatible is compatible under new numbers, so that only ticks open layers; and
detectors and observables add nothing but markers of their own. -/

namespace StimOverlay

open Build Emission Numeric Operation

/-- What an operation does and to which qubits, whatever line it comes from. -/
structure Action where
  gate : Gate
  tag : String
  args : List Binary32
  targets : List QubitId
deriving DecidableEq

namespace Action

def ofOperation (op : Operation) : Action := ⟨op.gate, op.tag, op.args, op.targets⟩

/-- The action on the qubits with the new numbers. -/
def renumber (n : Numbering) (a : Action) : Action := { a with targets := a.targets.map n.number }

theorem ofOperation_renumber {n : Numbering} {op : Operation} (h : Writable n op) (line : Nat) :
    ofOperation (Build.renumber n line op) = (ofOperation op).renumber n := by
  rw [h.renumber_eq, ofOperation, renumber, ofOperation, h.untagged, h.bare]

end Action

namespace Schedule

/-- The operations of the layer at position `k`; none if there is no such layer. -/
def operationsAt (s : Schedule) (k : Nat) : List Operation := s.operations[k]?.getD []

theorem operationsAt_position (s : Schedule) :
    s.operationsAt s.position = s.current.operations.toList := by
  have hlength : (s.finished.toList.map (·.operations.toList)).length = s.position := by
    rw [List.length_map]
    rfl
  rw [operationsAt, operations_eq, ← hlength, List.getElem?_concat_length]
  rfl

theorem operationsAt_modify_mark (s : Schedule) (k : Nat) (op : Operation) (j : Nat) :
    (s.modify k (·.mark op)).operationsAt j = s.operationsAt j := by
  rw [operationsAt, operations_modify_mark]
  rfl

theorem operationsAt_advance (s : Schedule) (j : Nat) :
    (s.advance .empty).operationsAt j = s.operationsAt j := by
  rw [operationsAt, operations, toList_advance, List.map_append]
  exact getD_concat_nil _ j

theorem operationsAt_insert (s : Schedule) (op : Operation) (j : Nat) :
    ({ s with current := s.current.insert op } : Schedule).operationsAt j =
      s.operationsAt j ++ if s.position = j then [op] else [] := by
  have hpush := getD_concat_push (s.finished.toList.map (·.operations.toList))
    s.current.operations.toList op j
  rw [List.length_map] at hpush
  rw [operationsAt, operationsAt, operations_eq, operations_eq, ← show _ = s.position from
    Array.length_toList, ← hpush]
  simp [Layer.insert]

theorem markersAt_insert (s : Schedule) (op : Operation) (j : Nat) :
    ({ s with current := s.current.insert op } : Schedule).markersAt j = s.markersAt j := by
  rw [markersAt, markersAt, markers_eq, markers_eq]
  rfl

theorem position_modify (s : Schedule) (k : Nat) (f : Layer → Layer) :
    (s.modify k f).position = s.position := Nat.succ.inj (size_modify s k f)

/-- What is not looked for cannot be seen, whichever layer it is put on. -/
theorem filter_markersAt_modify {P : Operation → Bool} {op : Operation} (hop : P op = false)
    (s : Schedule) (k j : Nat) :
    ((s.modify k (·.mark op)).markersAt j).filter P = (s.markersAt j).filter P := by
  rw [markersAt, markersAt, markers, markers, toList_modify, List.getElem?_map, List.getElem?_map,
    List.getElem?_modify]
  cases s.toList[j]? with
  | none => rfl
  | some l =>
      by_cases h : k = j
      · simp [h, Layer.mark, hop]
      · simp [h]

end Schedule

namespace Emission

variable {n : Numbering} {before : List (Nat × Operation)} {k : Nat} {s : Schedule}
  {op : Operation}

/-- Operations, each with its layer, that can be placed again under new numbers. -/
structure Replayable (n : Numbering) (all : List (Nat × Operation)) : Prop where
  writable : ∀ e ∈ all, Writable n e.2
  named : ∀ e ∈ all, ∀ q ∈ e.2.targets, n.number q ≤ maxQubitId
  written : ∀ e ∈ all, IsWritten e.2
  apart : ∀ e ∈ all, ∀ f ∈ all, ∀ q ∈ e.2.targets, ∀ r ∈ f.2.targets,
    n.number q = n.number r → q = r
  compatible : all.Pairwise fun e f =>
    e.1 = f.1 → e.2.gate.isMarker = false → f.2.gate.isMarker = false → e.2.Compatible f.2

theorem Replayable.sublist {all part : List (Nat × Operation)} (h : Replayable n all)
    (hsub : part.Sublist all) : Replayable n part where
  writable e he := h.writable e (hsub.subset he)
  named e he := h.named e (hsub.subset he)
  written e he := h.written e (hsub.subset he)
  apart e he f hf := h.apart e (hsub.subset he) f (hsub.subset hf)
  compatible := h.compatible.sublist hsub

/-- What is compatible stays so under numbers that keep qubits apart. -/
theorem compatible_of_renumbered {a b a' b' : Operation} (h : a.Compatible b)
    (hapart : ∀ q ∈ a.targets, ∀ r ∈ b.targets, n.number q = n.number r → q = r)
    (ha : Action.ofOperation a' = (Action.ofOperation a).renumber n)
    (hb : Action.ofOperation b' = (Action.ofOperation b).renumber n) : a'.Compatible b' := by
  obtain ⟨hgate, htag, hargs, htargets⟩ := Action.mk.inj ha
  obtain ⟨hgate', htag', hargs', htargets'⟩ := Action.mk.inj hb
  rintro ⟨q, hq, hq'⟩
  rw [htargets] at hq
  rw [htargets'] at hq'
  obtain ⟨r, hr, rfl⟩ := List.mem_map.1 hq
  obtain ⟨r', hr', heq⟩ := List.mem_map.1 hq'
  obtain rfl := hapart r hr r' hr' heq.symm
  obtain ⟨hsame, hsameTag, hsameArgs, hsameTargets, hmeasures⟩ := h ⟨r, hr, hr'⟩
  refine ⟨(hgate.trans hsame).trans hgate'.symm, (htag.trans hsameTag).trans htag'.symm, ?_, ?_, ?_⟩
  · rw [hargs, hargs']
    exact hsameArgs
  · rw [htargets, htargets']
    exact congrArg _ hsameTargets
  · rw [isMeasurement, hgate]
    exact hmeasures

/-- The actions of the operations in layer `j`, or of the markers there, under new numbers. -/
def actionsAt (n : Numbering) (ops : List (Nat × Operation)) (marking : Bool) (j : Nat) :
    List Action :=
  (ops.filter fun e => e.1 == j && e.2.gate.isMarker == marking).map fun e =>
    (Action.ofOperation e.2).renumber n

theorem actionsAt_concat (n : Numbering) (ops : List (Nat × Operation)) (marking : Bool)
    (e : Nat × Operation) (j : Nat) :
    actionsAt n (ops ++ [e]) marking j = actionsAt n ops marking j ++
      if e.1 = j ∧ e.2.gate.isMarker = marking then [(Action.ofOperation e.2).renumber n] else [] := by
  rw [actionsAt, List.filter_append, List.map_append]
  congr 1
  by_cases h : e.1 = j ∧ e.2.gate.isMarker = marking
  · rw [if_pos h]
    simp [h.1, h.2]
  · rw [if_neg h]
    simp [h]

/-- A schedule in which the given operations have been replayed, and in which the layer at position
`k` is the current one. -/
structure Replayed (n : Numbering) (before : List (Nat × Operation)) (k : Nat) (s : Schedule) :
    Prop where
  sound : s.Sound
  position : s.position = k
  operations : ∀ j, (s.operationsAt j).map Action.ofOperation = actionsAt n before false j
  markers : ∀ j, ((s.markersAt j).filter fun op => IsWritten op).map Action.ofOperation =
    actionsAt n before true j

theorem replayed_start (n : Numbering) : Replayed n [] 0 {} where
  sound l hl := by
    rw [List.mem_singleton.1 hl]
    exact Layer.sound_empty
  position := rfl
  operations j := by cases j <;> rfl
  markers j := by cases j <;> rfl

theorem wellBuilt_renumber (h : Writable n op) (hnamed : ∀ q ∈ op.targets, n.number q ≤ maxQubitId)
    (line : Nat) : WellBuilt .standard (Build.renumber n line op) := by
  rw [h.renumber_eq]
  refine ⟨h.built.known, ?_, fun q hq => ?_⟩
  · rw [List.length_map]
    exact h.built.count
  · obtain ⟨r, hr, rfl⟩ := List.mem_map.1 hq
    exact hnamed r hr

/-- One more operation joins the current layer. -/
theorem Replayed.place (h : Replayed n before k s) (hall : Replayable n (before ++ [(k, op)]))
    (line : Nat) :
    Replayed n (before ++ [(k, op)]) k (s.place (Build.renumber n line op)) := by
  have hmem : (k, op) ∈ before ++ [(k, op)] := List.mem_append_right _ (List.mem_singleton_self _)
  have hwritable := hall.writable _ hmem
  have haction := Action.ofOperation_renumber hwritable line
  have hgate : (Build.renumber n line op).gate = op.gate := gate_renumber n line op
  have hbuilt := wellBuilt_renumber hwritable (hall.named _ hmem) line
  have hwritten : IsWritten (Build.renumber n line op) := by
    rw [IsWritten, hgate]
    exact hall.written _ hmem
  have hposition := h.position
  have hsound := h.sound.place hbuilt
  rcases Schedule.place_cases h.sound hbuilt with ⟨hmarker, heq⟩ | ⟨hplaceable, -, heq⟩ |
    ⟨hplaceable, ⟨a, ha, hnot⟩, -⟩
  · rw [heq, Schedule.modifyCurrent_eq_modify] at hsound ⊢
    rw [hgate] at hmarker
    refine ⟨hsound, ?_, fun j => ?_, fun j => ?_⟩
    · rw [← Schedule.modifyCurrent_eq_modify]
      exact hposition
    · rw [Schedule.operationsAt_modify_mark, h.operations, actionsAt_concat,
        if_neg (by simp [hmarker]), List.append_nil]
    · rw [Schedule.markersAt_modify_mark s s.position_lt_size, List.filter_append, List.map_append,
        h.markers, actionsAt_concat, hposition]
      congr 1
      by_cases hj : k = j
      · simp [hj, hmarker, hwritten, haction]
      · simp [hj]
  · have hacting : op.gate.isMarker = false := hgate ▸ hplaceable.acting
    rw [heq] at hsound ⊢
    refine ⟨hsound, hposition, fun j => ?_, fun j => ?_⟩
    · rw [Schedule.operationsAt_insert, List.map_append, h.operations, actionsAt_concat, hposition]
      congr 1
      by_cases hj : k = j
      · simp [hj, hacting, haction]
      · simp [hj]
    · rw [Schedule.markersAt_insert, h.markers, actionsAt_concat, if_neg (by simp [hacting]),
        List.append_nil]
  · -- Whatever is in the layer was compatible before it was renumbered.
    refine absurd ?_ hnot
    have hacting : op.gate.isMarker = false := hgate ▸ hplaceable.acting
    rw [← Schedule.operationsAt_position, hposition] at ha
    have hfound := List.mem_map_of_mem (f := Action.ofOperation) ha
    rw [h.operations, actionsAt] at hfound
    obtain ⟨e, he, heq⟩ := List.mem_map.1 hfound
    obtain ⟨he, hlayer⟩ := List.mem_filter.1 he
    rw [Bool.and_eq_true, beq_iff_eq, beq_iff_eq] at hlayer
    have hcompatible := (List.pairwise_append.1 hall.compatible).2.2 e he _
      (List.mem_singleton_self _) hlayer.1 hlayer.2 hacting
    exact compatible_of_renumbered hcompatible
      (hall.apart e (List.mem_append_left _ he) _ hmem) heq.symm haction

theorem Replayed.places {ops : List Operation} (h : Replayed n before k s)
    (hall : Replayable n (before ++ ops.map (k, ·))) (line : Nat) :
    Replayed n (before ++ ops.map (k, ·)) k
      (ops.foldl (fun s op => s.place (Build.renumber n line op)) s) := by
  induction ops generalizing before s with
  | nil => rwa [List.map_nil, List.append_nil]
  | cons op rest ih =>
      rw [List.map_cons, List.append_cons] at hall ⊢
      exact ih (h.place (hall.sublist (List.sublist_append_left _ _)) line) hall

/-- Markers of detectors and observables are none of what is replayed. -/
theorem Replayed.markAll {t : Tape} (h : Replayed n before k t.schedule)
    {marks : List (Nat × Operation)} (hmarks : ∀ e ∈ marks, ¬IsWritten e.2) :
    Replayed n before k (t.markAll marks).schedule := by
  refine Tape.markAll_induction h fun e he s hs => ?_
  refine ⟨hs.sound.modify_mark e.1 e.2, ?_, fun j => ?_, fun j => ?_⟩
  · exact (Schedule.position_modify s e.1 _).trans hs.position
  · rw [Schedule.operationsAt_modify_mark]
    exact hs.operations j
  · rw [Schedule.filter_markersAt_modify (decide_eq_false (hmarks e he))]
    exact hs.markers j

theorem not_isWritten_of_mem_marks {t : Tape} {name : String} {g : Gate}
    (hg : Context.standard.catalog.gate? name = some g)
    (hname : g.name = detectorName ∨ g.name = observableName) {tag : String} {index : Binary32}
    {line : Nat} {numbers : List Nat} {e : Nat × Operation}
    (he : e ∈ t.marks (Context.standard.catalog.gate? name) tag index line numbers) :
    ¬IsWritten e.2 := by
  obtain ⟨g', hg', k, -, site, -, rfl⟩ := Tape.mem_marks.1 he
  obtain rfl := Option.some_inj.1 (hg.symm.trans hg')
  rintro ⟨hdetector, hobservable⟩
  exact hname.elim hdetector hobservable

/-- The moves of one line replay the operations on it. -/
theorem Replayed.line {t : Tape} (h : Replayed n before k t.schedule) {l : Line}
    (hall : Replayable n (before ++ l.ops.map (k, ·))) (m number : Nat) :
    Replayed n (before ++ l.ops.map (k, ·)) (l.next k)
      ((l.moves n m number).foldl (Tape.move .standard) t).schedule := by
  have hplaces (ops : List Operation) (hall : Replayable n (before ++ ops.map (k, ·))) :
      Replayed n (before ++ ops.map (k, ·)) k
        ((ops.map fun op => Move.place (Build.renumber n number op)).foldl
          (Tape.move .standard) t).schedule := by
    have hschedule : ((ops.map fun op => Move.place (Build.renumber n number op)).foldl
        (Tape.move .standard) t).schedule =
          ops.foldl (fun s op => s.place (Build.renumber n number op)) t.schedule := by
      rw [List.foldl_map]
      exact (List.foldl_hom Tape.schedule fun t op => rfl).symm
    rw [hschedule]
    exact h.places hall number
  cases l with
  | operations heading ops => exact hplaces ops hall
  | products heading ops => exact hplaces ops hall
  | detector label offsets =>
      exact ((List.append_nil before).symm ▸ h).markAll fun e he =>
        not_isWritten_of_mem_marks Tape.gate?_detector (.inl rfl) he
  | observable index offsets =>
      exact ((List.append_nil before).symm ▸ h).markAll fun e he =>
        not_isWritten_of_mem_marks Tape.gate?_observable (.inr rfl) he
  | tick =>
      rw [show before ++ Line.tick.ops.map (k, ·) = before from List.append_nil before]
      refine ⟨h.sound.advance Layer.sound_empty, ?_, fun j => ?_, fun j => ?_⟩
      · rw [← h.position]
        exact Array.size_push _
      · rw [← h.operations]
        exact congrArg _ (Schedule.operationsAt_advance t.schedule j)
      · rw [← h.markers]
        exact congrArg _ (congrArg _ (Tape.markersAt_advance t.schedule rfl j))
  | _ => exact (List.append_nil before).symm ▸ h

theorem filter_operationsFrom (layers : List Layer) (j : Nat) :
    (operationsFrom 0 layers).filter (·.1 == j) =
      (layers[j]?.map fun l => (writtenOf l).map (j, ·)).getD [] := by
  have h := Circuit.filter_flatMap_zipIdx layers (fun e => (writtenOf e.1).map (e.2, ·))
    (fun e : Nat × Operation => e.1) 0 (fun e _ b hb => by
      obtain ⟨op, -, rfl⟩ := List.mem_map.1 hb
      rfl) j
  rwa [Nat.zero_add] at h

/-- The actions of operations under new numbers. -/
def actionsOf (n : Numbering) (ops : List Operation) : List Action :=
  ops.map fun op => (Action.ofOperation op).renumber n

theorem actionsAt_operationsFrom (n : Numbering) (layers : List Layer) (marking : Bool) (j : Nat) :
    actionsAt n (operationsFrom 0 layers) marking j =
      (layers[j]?.map fun l => actionsOf n
        ((writtenOf l).filter fun op => op.gate.isMarker == marking)).getD [] := by
  have hsplit : (operationsFrom 0 layers).filter
      (fun e => e.1 == j && e.2.gate.isMarker == marking) =
        ((operationsFrom 0 layers).filter (·.1 == j)).filter
          fun e => e.2.gate.isMarker == marking := by
    rw [List.filter_filter]
    exact List.filter_congr fun e _ => Bool.and_comm _ _
  rw [actionsAt, hsplit, filter_operationsFrom]
  cases layers[j]? with
  | none => rfl
  | some l =>
      simp only [Option.map_some, Option.getD_some, List.filter_map, List.map_map]
      rfl

end Emission

namespace Schedule

/-- Trimming leaves one layer, or a last layer that holds something. -/
theorem ofReversed_cases (ls : List Layer) :
    (ofReversed ls).position = 0 ∨ (ofReversed ls).current.isEmpty = false := by
  induction ls with
  | nil => exact .inl rfl
  | cons l earlier ih =>
      cases earlier with
      | nil => exact .inl rfl
      | cons l' earlier =>
          rw [ofReversed]
          · cases hempty : l.isEmpty with
            | true => exact ih
            | false => exact .inr hempty
          · simp

theorem trimEnd_cases (s : Schedule) :
    s.trimEnd.position = 0 ∨ s.trimEnd.current.isEmpty = false :=
  ofReversed_cases s.toList.reverse

/-- The last layer that trimming leaves has not moved. -/
theorem overlaysAt_trimEnd (s : Schedule) :
    s.overlaysAt s.trimEnd.position = s.trimEnd.current.overlays.toList := by
  obtain ⟨rest, hrest, -⟩ := s.toList_eq_trimEnd_append
  rw [overlaysAt, overlays, hrest, toList, List.append_assoc, List.map_append,
    List.getElem?_append_right (by simp [position])]
  simp [position]

end Schedule

namespace Build

variable {text : String} {l : Layer}

theorem figuresOf_shiftOverlay (inserted : List Nat) (l : Layer) :
    figuresOf { l with overlays := l.overlays.map (Parsed.shiftOverlay inserted) } = figuresOf l := by
  rw [figuresOf, Array.toList_map, List.filterMap_map]
  exact List.filterMap_congr fun o _ => figure?_shiftOverlay inserted o

/-- Completing a draft drops empty layers at the end and renumbers the lines of overlays; the
layers keep their operations, markers and figures. -/
theorem schedule_parse (text : String) : ∃ f : Layer → Layer,
    (∀ l, (f l).operations = l.operations ∧ (f l).markers = l.markers ∧
      figuresOf (f l) = figuresOf l) ∧
      (parse text).circuit.schedule = (draft .standard text).schedule.trimEnd.map f := by
  let inserted := (finalState .standard (Source.normalize text.toList)).headers.toList.map (·.line)
  refine ⟨fun l => { l with overlays := l.overlays.map (Parsed.shiftOverlay inserted) },
    fun l => ⟨rfl, rfl, figuresOf_shiftOverlay inserted l⟩, ?_⟩
  simp only [parse, parseWith, Parsed.ofState, draft, Circuit.schedule_finish, inserted]

theorem mem_writtenOf_of_operation {op : Operation} (h : op ∈ l.operations.toList) :
    op ∈ writtenOf l := List.mem_append_left _ ((Layer.grouped_perm _).mem_iff.2 h)

/-- Of a layer that holds an operation or a marker, something is written: what a detector or an
observable marks is a measurement. -/
theorem writtenOf_ne_nil (hl : l ∈ (parse text).circuit.layers)
    (hne : l.operationsAndMarkers ≠ []) : writtenOf l ≠ [] := by
  obtain ⟨op, hop⟩ := List.exists_mem_of_ne_nil _ hne
  rcases List.mem_append.1 hop with hop | hop
  · exact List.ne_nil_of_mem (mem_writtenOf_of_operation hop)
  · obtain ⟨k, hk⟩ := List.mem_iff_getElem?.1 hl
    cases (marking_parse hk hop).2 with
    | written built plain =>
        have hgrouped := (Layer.grouped_perm l.markers.toList).mem_iff.2 hop
        exact List.ne_nil_of_mem (List.mem_append_right _
          (List.mem_filter.2 ⟨hgrouped, decide_eq_true plain⟩))
    | measured name found targets =>
        obtain ⟨measuring, hmeasuring, -⟩ := exists_measuring hk found
        exact List.ne_nil_of_mem (mem_writtenOf_of_operation hmeasuring)

/-- Text that draws nothing but figures behind its first layer leaves a single layer, or a last layer of
which something is written or drawn. -/
theorem last_parse
    (h : ∀ j, 0 < j → ∀ o ∈ (draft .standard text).schedule.overlaysAt j, (figure? o).isSome) :
    (parse text).circuit.layers.length = 1 ∨
      ∃ l, (parse text).circuit.layers.getLast? = some l ∧ (writtenOf l ≠ [] ∨ figuresOf l ≠ []) := by
  obtain ⟨f, hf, hschedule⟩ := schedule_parse text
  have hlayers : (parse text).circuit.layers =
      (draft .standard text).schedule.trimEnd.finished.toList.map f ++
        [f (draft .standard text).schedule.trimEnd.current] := by
    rw [Circuit.layers, hschedule, Schedule.toList_map, Schedule.toList, List.map_append]
    rfl
  rcases Nat.eq_zero_or_pos (draft .standard text).schedule.trimEnd.position with hzero | hpos
  · left
    rw [hlayers, List.length_append, List.length_map, Array.length_toList]
    exact congrArg (· + 1) hzero
  · right
    have hempty := (Schedule.trimEnd_cases (draft .standard text).schedule).resolve_left hpos.ne'
    obtain ⟨hops, hmarkers, hfigures⟩ := hf (draft .standard text).schedule.trimEnd.current
    have hlast : f (draft .standard text).schedule.trimEnd.current ∈ (parse text).circuit.layers :=
      hlayers ▸ List.mem_append_right _ (List.mem_singleton_self _)
    refine ⟨_, by rw [hlayers, List.getLast?_concat], ?_⟩
    by_contra hnone
    obtain ⟨hwritten, hdrawn⟩ := not_or.1 hnone
    have hbare := mt (writtenOf_ne_nil hlast) hwritten
    rw [Layer.operationsAndMarkers, hops, hmarkers, not_not, List.append_eq_nil_iff] at hbare
    rw [hfigures, not_not] at hdrawn
    -- Whatever is drawn on the last layer would be a figure.
    have hoverlays : (draft .standard text).schedule.trimEnd.current.overlays.toList = [] := by
      rw [List.eq_nil_iff_forall_not_mem]
      intro o ho
      rw [← Schedule.overlaysAt_trimEnd] at ho
      obtain ⟨figure, hfigure⟩ := Option.isSome_iff_exists.1 (h _ hpos o ho)
      rw [Schedule.overlaysAt_trimEnd] at ho
      exact List.ne_nil_of_mem (List.mem_filterMap.2 ⟨o, ho, hfigure⟩) hdrawn
    rw [Layer.isEmpty, Array.toList_eq_nil_iff.1 hbare.1, Array.toList_eq_nil_iff.1 hbare.2,
      Array.toList_eq_nil_iff.1 hoverlays] at hempty
    cases hempty

theorem filter_writtenOf (h : l.Filed) :
    (writtenOf l).filter (fun op => op.gate.isMarker == false) =
        Layer.grouped l.operations.toList ∧
      (writtenOf l).filter (fun op => op.gate.isMarker == true) =
        (Layer.grouped l.markers.toList).filter fun op => IsWritten op := by
  constructor
  · rw [← acting_writtenOf h]
    exact List.filter_congr fun op _ => by simp
  · rw [writtenOf, List.filter_append, List.filter_eq_nil_iff.2, List.nil_append,
      List.filter_eq_self.2]
    · intro op hop
      have hop := (Layer.grouped_perm _).mem_iff.1 (List.mem_of_mem_filter hop)
      simp [h.markers op hop]
    · intro op hop
      simp [h.operations op ((Layer.grouped_perm _).mem_iff.1 hop)]

theorem mem_operationsFrom {e : Nat × Operation}
    (he : e ∈ operationsFrom 0 (parse text).circuit.layers) :
    ∃ l ∈ (parse text).circuit.layers, e.2 ∈ l.operationsAndMarkers ∧ IsWritten e.2 := by
  obtain ⟨⟨l, k⟩, hl, he⟩ := List.mem_flatMap.1 he
  have hmem := List.fst_mem_of_mem_zipIdx hl
  obtain ⟨op, hop, rfl⟩ := List.mem_map.1 he
  refine ⟨l, hmem, ?_⟩
  rcases List.mem_append.1 hop with hop | hop
  · have hop := (Layer.grouped_perm _).mem_iff.1 hop
    exact ⟨List.mem_append_left _ hop, (tells_parse hmem).acting op hop⟩
  · obtain ⟨hop, hwritten⟩ := List.mem_filter.1 hop
    exact ⟨List.mem_append_right _ ((Layer.grouped_perm _).mem_iff.1 hop),
      of_decide_eq_true hwritten⟩

/-- What is written of an expressible circuit can be replayed. -/
theorem replayable_parse {d : Detail} (h : ExpressibleIn d (parse text).circuit) :
    Replayable (numberingOf (parse text).circuit d)
      (operationsFrom 0 (parse text).circuit.layers) where
  writable e he := by
    obtain ⟨l, hl, hop, hwritten⟩ := mem_operationsFrom he
    exact writable_parse h hl hop hwritten
  named e he q hq := by
    obtain ⟨l, hl, hop, -⟩ := mem_operationsFrom he
    exact number_parse_le (mentioned_of_mem hl hop hq)
  written e he := (mem_operationsFrom he).choose_spec.2.2
  apart e he f hf q hq r hr := by
    obtain ⟨l, hl, hop, -⟩ := mem_operationsFrom he
    obtain ⟨l', hl', hop', -⟩ := mem_operationsFrom hf
    exact number_injective (mentioned_of_mem hl hop hq) (mentioned_of_mem hl' hop' hr)
  compatible := by
    rw [operationsFrom, List.pairwise_flatMap]
    constructor
    · rintro ⟨l, k⟩ hl
      have hmem := List.fst_mem_of_mem_zipIdx hl
      have hfiled := filed_parse hmem
      rw [List.pairwise_map, writtenOf, List.pairwise_append]
      refine ⟨?_, ?_, ?_⟩
      · have hcompatible := (sound_parse text hmem).compatible
        have hgrouped := (Layer.grouped_perm l.operations.toList).pairwise_iff
          (fun h => Operation.Compatible.symm h) |>.2 hcompatible
        exact hgrouped.imp fun hab _ _ _ => hab
      · refine List.pairwise_of_forall_mem_list fun a ha _ _ _ hacting => ?_
        have ha := (Layer.grouped_perm _).mem_iff.1 (List.mem_of_mem_filter ha)
        rw [hfiled.markers a ha] at hacting
        cases hacting
      · intro a _ b hb _ _ hacting
        have hb := (Layer.grouped_perm _).mem_iff.1 (List.mem_of_mem_filter hb)
        rw [hfiled.markers b hb] at hacting
        cases hacting
    · refine (pairwise_zipIdx _).imp ?_
      intro x y hlt e he f hf hsame
      obtain ⟨a, -, rfl⟩ := List.mem_map.1 he
      obtain ⟨b, -, rfl⟩ := List.mem_map.1 hf
      exact absurd hsame (Nat.ne_of_lt hlt)

end Build

end StimOverlay
