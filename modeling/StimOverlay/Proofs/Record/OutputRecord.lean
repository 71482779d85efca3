import StimOverlay.Proofs.Record.BackwardReferences

/-! Layers as they are written out. Writing gathers the operations of a layer under their headings,
which changes their order and nothing else: the record of the output has every measurement again. -/

namespace StimOverlay

open Build

theorem isLE_total {cmp : α → α → Ordering} [Std.OrientedCmp cmp] (a b : α) :
    ((cmp a b).isLE || (cmp b a).isLE) = true := by
  by_cases h : (cmp a b).isLE
  · rw [h, Bool.true_or]
  · rw [Std.OrientedCmp.lt_of_not_isLE h, Bool.or_eq_true]
    exact .inr rfl

namespace Layer

/-- The headings of operations, in ascending order. -/
def headings (ops : List Operation) : List String :=
  (ops.map Operation.heading).eraseDups.mergeSort fun a b => (compare a b).isLE

/-- Operations in the order in which they are written out. -/
def grouped (ops : List Operation) : List Operation := (groupByHeading ops).flatMap (·.2)

theorem groupByHeading_eq (ops : List Operation) :
    groupByHeading ops = (headings ops).map fun h => (h, ops.filter (·.heading == h)) := by
  rw [groupByHeading, headings]
  simp only [List.map_map, List.filter_map, Function.comp_def, List.map_id']

theorem grouped_eq (ops : List Operation) :
    grouped ops = (headings ops).flatMap fun h => ops.filter (·.heading == h) := by
  rw [grouped, groupByHeading_eq, List.flatMap_map]

theorem mem_headings {ops : List Operation} {h : String} :
    h ∈ headings ops ↔ ∃ op ∈ ops, op.heading = h := by
  rw [headings, List.mem_mergeSort, List.mem_eraseDups, List.mem_map]

theorem nodup_headings (ops : List Operation) : (headings ops).Nodup :=
  (List.mergeSort_perm _ _).nodup_iff.2 (nodup_eraseDups _)

theorem sorted_headings (ops : List Operation) :
    (headings ops).Pairwise fun a b => (compare a b).isLE = true :=
  List.pairwise_mergeSort (fun _ _ _ => Std.TransCmp.isLE_trans) isLE_total _

theorem pairwise_headings (ops : List Operation) :
    (headings ops).Pairwise fun a b => compare a b = .lt := by
  refine ((sorted_headings ops).and (nodup_headings ops)).imp fun {a b} ⟨hle, hne⟩ => ?_
  cases hcompare : compare a b with
  | lt => rfl
  | eq => exact absurd (Std.LawfulEqCmp.eq_of_compare hcompare) hne
  | gt =>
      rw [hcompare] at hle
      cases hle

theorem grouped_perm (ops : List Operation) : (grouped ops).Perm ops := by
  rw [grouped_eq]
  exact flatMap_filter_perm Operation.heading (nodup_headings ops) fun op hop =>
    mem_headings.2 ⟨op, hop, rfl⟩

/-- What is gathered under ascending keys is the list itself if it is sorted by them. -/
theorem flatMap_filter_of_sorted {ks : List String}
    (hks : ks.Pairwise fun a b => compare a b = .lt) {ops : List Operation}
    (hops : ∀ op ∈ ops, op.heading ∈ ks)
    (hsorted : (ops.map Operation.heading).Pairwise fun a b => (compare a b).isLE) :
    ks.flatMap (fun k => ops.filter (·.heading == k)) = ops := by
  rw [List.pairwise_map] at hsorted
  induction ks generalizing ops with
  | nil => exact (List.eq_nil_iff_forall_not_mem.2 fun op hop => List.not_mem_nil (hops op hop)).symm
  | cons k rest ih =>
      obtain ⟨hk, hrest⟩ := List.pairwise_cons.1 hks
      have hleast : ∀ op ∈ ops, (compare k op.heading).isLE := by
        intro op hop
        rcases List.mem_cons.1 (hops op hop) with heq | hmem
        · rw [heq, Std.ReflOrd.compare_self]
          rfl
        · rw [hk _ hmem]
          rfl
      obtain ⟨hfront, hbehind⟩ := takeWhile_eq_filter (P := fun op : Operation => op.heading == k)
        (hsorted.imp_of_mem fun {a b} ha _ hle hb => by
          rw [beq_iff_eq] at hb ⊢
          rw [hb] at hle
          exact Std.LawfulEqCmp.eq_of_compare (Std.OrientedCmp.isLE_antisymm hle (hleast a ha)))
      have hother : ∀ k' ∈ rest, (ops.filter (!·.heading == k)).filter (·.heading == k') =
          ops.filter (·.heading == k') := by
        intro k' hk'
        rw [List.filter_filter]
        refine List.filter_congr fun op _ => ?_
        have hne : k ≠ k' := fun heq => by
          have hlt := hk k' hk'
          rw [heq, Std.ReflOrd.compare_self] at hlt
          cases hlt
        by_cases heq : op.heading = k'
        · simp [heq, Ne.symm hne]
        · simp [heq]
      have hkeys : ∀ op ∈ ops.filter (!·.heading == k), op.heading ∈ rest := by
        intro op hop
        obtain ⟨hop, hne⟩ := List.mem_filter.1 hop
        exact (List.mem_cons.1 (hops op hop)).resolve_left (by simpa using hne)
      have hlater := ih hrest hkeys (hsorted.filter _)
      rw [List.flatMap_congr hother] at hlater
      rw [List.flatMap_cons, hlater, ← hfront, ← hbehind]
      exact (List.prefix_append_drop (List.takeWhile_prefix _)).symm

/-- Operations that are sorted by their headings are written in the order that they have. -/
theorem grouped_of_sorted {ops : List Operation}
    (h : (ops.map Operation.heading).Pairwise fun a b => (compare a b).isLE) :
    grouped ops = ops := by
  rw [grouped_eq]
  exact flatMap_filter_of_sorted (pairwise_headings ops)
    (fun op hop => mem_headings.2 ⟨op, hop, rfl⟩) h

/-- Operations are written sorted by their headings. -/
theorem sorted_grouped (ops : List Operation) :
    ((grouped ops).map Operation.heading).Pairwise fun a b => (compare a b).isLE := by
  rw [grouped_eq, List.pairwise_map, List.pairwise_flatMap]
  have hheading : ∀ {k : String} {op : Operation}, op ∈ ops.filter (·.heading == k) →
      op.heading = k := fun hop => beq_iff_eq.1 (List.mem_filter.1 hop).2
  constructor
  · refine fun k _ => List.pairwise_of_forall_mem_list fun a ha b hb => ?_
    rw [hheading ha, hheading hb, Std.ReflOrd.compare_self]
    rfl
  · refine (pairwise_headings ops).imp fun hlt a ha b hb => ?_
    rw [hheading ha, hheading hb, hlt]
    rfl

/-- Operations and markers are kept apart. -/
structure Filed (l : Layer) : Prop where
  operations : ∀ op ∈ l.operations.toList, op.gate.isMarker = false
  markers : ∀ op ∈ l.markers.toList, op.gate.isMarker = true

variable {l : Layer}

theorem groups_eq (h : l.Filed) :
    l.groups = groupByHeading l.operations.toList ++ groupByHeading l.markers.toList := by
  have hoperations : l.operationsAndMarkers.filter (!·.gate.isMarker) = l.operations.toList := by
    rw [operationsAndMarkers, List.filter_append, List.filter_eq_self.2 fun op hop => by
      rw [h.operations op hop]
      rfl, List.filter_eq_nil_iff.2 fun op hop => by simp [h.markers op hop], List.append_nil]
  have hmarkers : l.operationsAndMarkers.filter (·.gate.isMarker) = l.markers.toList := by
    rw [operationsAndMarkers, List.filter_append, List.filter_eq_nil_iff.2 fun op hop => by
      simp [h.operations op hop], List.filter_eq_self.2 h.markers, List.nil_append]
  rw [groups, hoperations, hmarkers]

theorem inOrder_output (h : l.Filed) :
    l.inOrder .output = grouped l.operations.toList ++ grouped l.markers.toList := by
  rw [inOrder, groups_eq h, List.flatMap_append]
  rfl

/-- Writing changes the order in which a layer is recorded, and nothing else. -/
theorem stage_output (h : l.Filed) (k : Nat) :
    stage k (l.inOrder .output) = stage k (grouped l.operations.toList) := by
  have hmarkers : stage k (grouped l.markers.toList) = [] := by
    rw [List.eq_nil_iff_forall_not_mem]
    intro e he
    obtain ⟨op, hop, hmeasures, -⟩ := mem_stage.1 he
    rw [Tape.isMeasurement_of_isMarker (h.markers op ((grouped_perm _).mem_iff.1 hop))] at hmeasures
    cases hmeasures
  rw [inOrder_output h, stage_append, hmarkers, List.append_nil]

theorem stage_output_perm (h : l.Filed) (k : Nat) :
    (stage k (l.inOrder .output)).Perm (stage k l.operations.toList) := by
  rw [stage_output h]
  exact ((grouped_perm _).filter _).filterMap _

end Layer

theorem Circuit.length_recordIn {layers : List Layer} (h : ∀ l ∈ layers, l.Filed) (k : Nat) :
    (recordIn .output k layers).length = (recordIn .placement k layers).length := by
  induction layers generalizing k with
  | nil => rfl
  | cons l rest ih =>
      have hl := (Layer.stage_output_perm (h l List.mem_cons_self) k).length_eq
      have hrest := ih (fun l' hl' => h l' (List.mem_cons_of_mem l hl')) (k + 1)
      simp only [recordIn, List.map_cons, recordFrom, List.length_append] at hrest ⊢
      rw [hl, hrest]
      rfl

namespace Build

/-- What a marker stands for: feedback or a mark of the text itself, or a measurement of its layer that
a detector or an observable names. -/
inductive Marking (t : Tape) (e : Nat × Operation) : Prop where
  | written (built : WellBuilt .standard e.2)
      (plain : e.2.gate.name ≠ detectorName ∧ e.2.gate.name ≠ observableName)
  | measured (name : e.2.gate.name = detectorName ∨ e.2.gate.name = observableName)
      {q : QubitId} (found : (⟨e.1, q⟩ : Site) ∈ t.record.toList) (targets : e.2.targets = [q])

theorem Marking.move {t : Tape} {e : Nat × Operation} (h : Marking t e) (ctx : Context) (m : Move) :
    Marking (t.move ctx m) e := by
  cases h with
  | written built plain => exact .written built plain
  | measured name found targets =>
      obtain ⟨k, hk⟩ := List.mem_iff_getElem?.1 found
      rw [Array.getElem?_toList] at hk
      have hlt := (Array.getElem?_eq_some_iff.1 hk).1
      refine .measured name ?_ targets
      exact Array.mem_toList_iff.2 (Array.mem_of_getElem? ((Tape.record_move ctx t m hlt).trans hk))

namespace Tape

theorem marking_stamps {t : Tape} {m : Move} (hm : m.Legal) {e : Nat × Operation}
    (he : e ∈ t.stamps .standard m) : e.2.gate.isMarker = true ∧ Marking t e := by
  have hmarks : ∀ {g : Gate} {tag : String} {index : Numeric.Binary32} {line : Nat}
      {numbers : List Nat}, g.isMarker = true → g.name = detectorName ∨ g.name = observableName →
      e ∈ t.marks (some g) tag index line numbers → e.2.gate.isMarker = true ∧ Marking t e := by
    intro g tag index line numbers hmarker hname he
    obtain ⟨g', hg', k, -, site, hsite, rfl⟩ := mem_marks.1 he
    cases hg'
    exact ⟨hmarker, .measured hname (Array.mem_toList_iff.2 (Array.mem_of_getElem? hsite)) rfl⟩
  cases m with
  | tick => cases he
  | place op =>
      rw [stamps] at he
      by_cases hmarker : op.gate.isMarker
      · rw [if_pos hmarker, List.mem_singleton] at he
        subst he
        exact ⟨hmarker, .written hm.1 hm.2⟩
      · rw [if_neg hmarker] at he
        cases he
  | mark op =>
      rw [stamps, List.mem_singleton] at he
      subst he
      obtain ⟨hbuilt, hname⟩ := hm
      have herr : op.gate = ⟨"ERR", 1, false, .marker⟩ :=
        hbuilt.known.eq_of_name_eq (.inl ⟨"ERR", rfl⟩) hname
      refine ⟨by rw [herr]; rfl, .written hbuilt ?_⟩
      rw [hname]
      decide
  | detector tag line numbers =>
      rw [stamps, gate?_detector] at he
      exact hmarks rfl (.inl rfl) he
  | observable index tag line numbers =>
      rw [stamps, gate?_observable] at he
      exact hmarks rfl (.inr rfl) he

theorem marking_stampsOf {ms : List Move} (hms : ∀ m ∈ ms, m.Legal) :
    ∀ e ∈ stampsOf .standard ms,
      e.2.gate.isMarker = true ∧ Marking (Tape.after .standard ms) e := by
  induction ms using List.reverseRecOn with
  | nil => exact fun e he => absurd he List.not_mem_nil
  | append_singleton ms m ih =>
      intro e he
      rw [stampsOf_concat, List.mem_append] at he
      rw [after_concat]
      rcases he with he | he
      · obtain ⟨hmarker, hmarking⟩ := ih (fun m' hm' => hms m' (List.mem_append_left _ hm')) e he
        exact ⟨hmarker, hmarking.move .standard m⟩
      · obtain ⟨hmarker, hmarking⟩ :=
          marking_stamps (hms m (List.mem_append_right _ (List.mem_singleton_self m))) he
        exact ⟨hmarker, hmarking.move .standard m⟩

end Tape

variable {text : String} {l : Layer}

theorem marking_parse {k : Nat} (hl : (parse text).circuit.layers[k]? = some l) {op : Operation}
    (hop : op ∈ l.markers.toList) : op.gate.isMarker = true ∧ Marking (tapeOf text) (k, op) := by
  rw [(marked_parse text).markers k l hl] at hop
  obtain ⟨e, he, rfl⟩ := List.mem_map.1 hop
  obtain ⟨he, hk⟩ := List.mem_filter.1 he
  rw [← beq_iff_eq.1 hk]
  exact Tape.marking_stampsOf (legal_movesOf text) e he

theorem filed_parse (hl : l ∈ (parse text).circuit.layers) : l.Filed where
  operations op hop := ((sound_parse text hl).placeable op hop).acting
  markers op hop := by
    obtain ⟨k, hk⟩ := List.mem_iff_getElem?.1 hl
    exact (marking_parse hk hop).1

theorem separated_output (text : String) : Separated .output (parse text).circuit.layers := by
  intro l hl k
  have hperm := (Layer.stage_output_perm (filed_parse hl) k).map (·.1.qubit)
  exact hperm.nodup_iff.2 (separated_parse text l hl k)

theorem mem_record_output {e : Site × List QubitId} :
    e ∈ Circuit.recordIn .output 0 (parse text).circuit.layers ↔
      e ∈ Circuit.recordIn .placement 0 (parse text).circuit.layers := by
  rw [Circuit.recordIn, Circuit.recordIn, mem_recordFrom, mem_recordFrom]
  refine and_congr_right fun _ => ?_
  simp only [List.getElem?_map, Option.map_eq_some_iff]
  constructor
  · rintro ⟨ops, ⟨l, hl, rfl⟩, he⟩
    have hfiled := filed_parse (List.mem_of_getElem? hl)
    exact ⟨_, ⟨l, hl, rfl⟩, (Layer.stage_output_perm hfiled _).mem_iff.1 he⟩
  · rintro ⟨ops, ⟨l, hl, rfl⟩, he⟩
    have hfiled := filed_parse (List.mem_of_getElem? hl)
    exact ⟨_, ⟨l, hl, rfl⟩, (Layer.stage_output_perm hfiled _).mem_iff.2 he⟩

theorem retrieved_output (text : String) : Retrieved text .output := by
  intro site hsite
  rw [← record_parse, List.mem_map] at hsite
  obtain ⟨e, he, rfl⟩ := hsite
  obtain ⟨i, hi⟩ := List.mem_iff_getElem?.1 (mem_record_output.2 he)
  have hfound : Circuit.measurementAt .output (parse text).circuit.layers e.1 = some ⟨i, e.2⟩ :=
    (Circuit.measurementAt_eq_some_iff (separated_output text)).2 hi
  rw [hfound]
  rfl

theorem length_record_output (text : String) :
    (Circuit.recordIn .output 0 (parse text).circuit.layers).length =
      (parse text).circuit.measurements := by
  rw [← length_record_parse]
  exact Circuit.length_recordIn (fun l hl => filed_parse hl) 0

theorem separated_of_order (text : String) (order : RecordOrder) : Separated order (parse text).circuit.layers := by
  cases order with
  | placement => exact separated_parse text
  | output => exact separated_output text

theorem retrieved_of_order (text : String) (order : RecordOrder) : Retrieved text order := by
  cases order with
  | placement => exact retrieved_placement text
  | output => exact retrieved_output text

theorem length_record_of_order (text : String) (order : RecordOrder) :
    (Circuit.recordIn order 0 (parse text).circuit.layers).length =
      (parse text).circuit.measurements := by
  cases order with
  | placement => exact length_record_parse text
  | output => exact length_record_output text

end Build

end StimOverlay
