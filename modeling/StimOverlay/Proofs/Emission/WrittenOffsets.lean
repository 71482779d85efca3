import StimOverlay.Proofs.Emission.WrittenLayers

/-! Written offsets. Written lines make a record of their own: the measurements on them, in order. A
detector or an observable counts back from where it stands to measurements that are written before it,
those that it was collected with; and it stands right behind the layer that has the last one of them. -/

namespace StimOverlay

open Build Numeric

namespace Emission

/-- What a line refers to: the index of an observable, or none for a detector, and offsets. -/
def Line.reference? : Line → Option (Option Nat × List Int)
  | .detector _ offsets => some (none, offsets)
  | .observable index offsets => some (some index, offsets)
  | _ => none

/-- A detector or an observable among lines. -/
structure Mention where
  /-- The index of an observable; a detector has none. -/
  index : Option Nat
  offsets : List Int
  layer : Nat
  /-- The operations on the lines before it, each with its layer. -/
  before : List (Nat × Operation)

/-- The detectors and observables on lines, which stand behind `k` ticks and the given operations. -/
def mentions (k : Nat) (before : List (Nat × Operation)) : List Line → List Mention
  | [] => []
  | l :: ls =>
      l.reference?.toList.map (fun r => ⟨r.1, r.2, k, before⟩) ++
        mentions (l.next k) (before ++ l.ops.map (k, ·)) ls

/-- The record that operations make. -/
def recordOf (ops : List (Nat × Operation)) : List (Nat × Operation) :=
  ops.filter (·.2.isMeasurement)

/-- The measurement `e` is one of those that a mention counts back to. -/
def Mention.Denotes (m : Mention) (e : Nat × Operation) : Prop :=
  ∃ k : Nat, 0 < k ∧ k ≤ (recordOf m.before).length ∧ -(k : Int) ∈ m.offsets ∧
    (recordOf m.before)[(recordOf m.before).length - k]? = some e

theorem recordOf_append (xs ys : List (Nat × Operation)) :
    recordOf (xs ++ ys) = recordOf xs ++ recordOf ys := List.filter_append ..

theorem mentions_append {ls : List Line} (h : .tick ∉ ls) (k : Nat)
    (before : List (Nat × Operation)) (rest : List Line) :
    mentions k before (ls ++ rest) =
      mentions k before ls ++
        mentions k (before ++ (ls.flatMap Line.ops).map (k, ·)) rest := by
  induction ls generalizing before with
  | nil => simp [mentions]
  | cons l ls ih =>
      obtain ⟨hl, hls⟩ := not_or.1 (mt List.mem_cons.2 h)
      rw [List.cons_append, mentions, mentions, next_of_ne_tick (Ne.symm hl), ih hls,
        List.append_assoc, List.flatMap_cons, List.map_append, List.append_assoc]

/-- Lines that carry nothing leave what is written as it is. -/
theorem mentions_silent {ls : List Line} (h : Silent ls) (k : Nat)
    (before : List (Nat × Operation)) (rest : List Line) :
    mentions k before (ls ++ rest) =
      (ls.filterMap Line.reference?).map (fun r => ⟨r.1, r.2, k, before⟩) ++
        mentions k before rest := by
  induction ls with
  | nil => rfl
  | cons l ls ih =>
      obtain ⟨⟨hops, hl⟩, hls⟩ := List.forall_mem_cons.1 h
      rw [List.cons_append, mentions, hops, List.map_nil, List.append_nil, next_of_ne_tick hl,
        ih hls, List.filterMap_cons]
      cases l.reference? <;> rfl

theorem mentions_eq_nil {ls : List Line} (h : ∀ l ∈ ls, l.reference? = none) (k : Nat)
    (before : List (Nat × Operation)) : mentions k before ls = [] := by
  induction ls generalizing k before with
  | nil => rfl
  | cons l ls ih =>
      obtain ⟨hl, hls⟩ := List.forall_mem_cons.1 h
      rw [mentions, hl, ih hls]
      rfl

theorem mentions_tick (k : Nat) (before : List (Nat × Operation)) (ls : List Line) :
    mentions k before (.tick :: ls) = mentions (k + 1) before ls := by
  simp [mentions, Line.reference?, Line.ops, Line.next]

theorem mentions_ticks (k : Nat) (before : List (Nat × Operation)) (ls : List Line) (n : Nat) :
    mentions k before (ls ++ List.replicate n .tick) = mentions k before ls := by
  induction ls generalizing k before with
  | nil =>
      refine mentions_eq_nil (fun l hl => ?_) k before
      rw [List.eq_of_mem_replicate hl]
      rfl
  | cons l ls ih => rw [List.cons_append, mentions, ih, mentions]

variable {l : Layer}

theorem mentions_layerLines (d : Detail) (h : Tells l) (k : Nat)
    (before : List (Nat × Operation)) (rest : List Line) :
    mentions k before (layerLines d l ++ rest) =
      mentions k (before ++ (writtenOf l).map (k, ·)) rest := by
  have hnone : ∀ line ∈ layerLines d l, line.reference? = none := by
    intro line hline
    have hlayer := ofLayer_layerLines hline
    cases line with
    | detector label offsets => exact absurd hlayer id
    | observable index offsets => exact absurd hlayer id
    | _ => rfl
  rw [mentions_append (tick_notMem_layerLines d l), mentions_eq_nil hnone, ops_layerLines d h,
    List.nil_append]

namespace Pending

variable {p : Pending} {c : Circuit}

/-- The detectors and observables that are still to be written, as they were collected. -/
def entries (p : Pending) : List (Option Nat × List Int) :=
  p.detectors.map (fun d => (none, d.offsets)) ++ p.observables.map fun e => (some e.1, e.2)

/-- The entries of detectors, in order. -/
theorem filter_entries (p : Pending) :
    p.entries.filter (·.1.isNone) = p.detectors.map fun d => (none, d.offsets) := by
  rw [entries, List.filter_append, List.filter_eq_self.2, List.filter_eq_nil_iff.2,
    List.append_nil]
  · intro e he
    obtain ⟨e, -, rfl⟩ := List.mem_map.1 he
    exact Bool.false_ne_true
  · intro e he
    obtain ⟨d, -, rfl⟩ := List.mem_map.1 he
    rfl

theorem filter_entries_offsets (p : Pending) (P : List Int → Bool) :
    p.entries.filter (P ·.2) =
      (p.detectors.filter fun d => P d.offsets).map (fun d => (none, d.offsets)) ++
        (p.observables.filter fun e => P e.2).map fun e => (some e.1, e.2) := by
  rw [entries, List.filter_append, List.filter_map, List.filter_map]
  rfl

theorem reference?_labelDetectors (c : Circuit) (time : Nat) (p : Pending) (ds : List Detector) :
    (p.labelDetectors c time ds).1.filterMap Line.reference? =
      ds.map fun d => (none, d.offsets.map p.shift) := by
  induction ds generalizing p with
  | nil => rfl
  | cons d rest ih => exact congrArg ((none, d.offsets.map p.shift) :: ·) (ih _)

end Pending

/-- An entry that none of the `n` measurements so far completes, among `total` in all. -/
structure Due (total n : Nat) (entry : Option Nat × List Int) : Prop where
  range : ∀ o ∈ entry.2, o < 0 ∧ 0 ≤ (total : Int) + o
  ordered : entry.2.Pairwise (· > ·)
  last : ∃ o, entry.2.head? = some o ∧ (n : Int) ≤ total + o

/-- What is pending behind `n` of `total` measurements. -/
structure Waiting (total n : Nat) (p : Pending) : Prop where
  due : ∀ entry ∈ p.entries, Due total n entry
  sorted : p.detectors.Pairwise fun a b => a.offsets.headD 0 ≤ b.offsets.headD 0

theorem Due.le_last {total n : Nat} {entry : Option Nat × List Int} (h : Due total n entry)
    {o last : Int} (hlast : entry.2.head? = some last) (ho : o ∈ entry.2) : o ≤ last := by
  obtain ⟨rest, heq⟩ := List.head?_eq_some_iff.1 hlast
  rw [heq] at ho
  rcases List.mem_cons.1 ho with rfl | ho
  · exact Int.le_refl _
  · exact Int.le_of_lt ((List.pairwise_cons.1 (heq ▸ h.ordered)).1 o ho)

variable {total n n' : Nat} {p : Pending} {c : Circuit}

/-- With `n'` measurements written, an entry is written if all of its measurements are, and is due
otherwise. -/
theorem Due.isWritten {entry : Option Nat × List Int} (h : Due total n entry)
    (hp : p.measurements = (total : Int) - n') :
    (p.isWritten entry.2 = true ∧ ∀ o ∈ entry.2, (total : Int) + o < n') ∨
      (p.isWritten entry.2 = false ∧ Due total n' entry) := by
  obtain ⟨last, hlast, -⟩ := h.last
  have hshift : p.isWritten entry.2 = decide ((total : Int) + last < n') := by
    rw [Pending.isWritten, hlast, Option.any_some, Pending.shift, hp]
    congr 1
    exact propext ⟨fun h => by omega, fun h => by omega⟩
  by_cases hdone : (total : Int) + last < n'
  · refine .inl ⟨by rw [hshift, decide_eq_true hdone], fun o ho => ?_⟩
    have hle := h.le_last hlast ho
    omega
  · refine .inr ⟨by rw [hshift, decide_eq_false hdone], h.range, h.ordered, last, hlast, ?_⟩
    omega

theorem Waiting.due_detector (h : Waiting total n p) {d : Detector} (hd : d ∈ p.detectors) :
    Due total n (none, d.offsets) :=
  h.due _ (List.mem_append_left _ (List.mem_map_of_mem hd))

theorem Waiting.due_observable (h : Waiting total n p) {e : Nat × List Int}
    (he : e ∈ p.observables) : Due total n (some e.1, e.2) :=
  h.due _ (List.mem_append_right _ (List.mem_map_of_mem he))

/-- Because the detectors are sorted, those that are written are the ones in front. -/
theorem Waiting.front (h : Waiting total n p) :
    p.detectors.takeWhile (fun d => p.isWritten d.offsets) =
        p.detectors.filter (fun d => p.isWritten d.offsets) ∧
      p.detectors.drop (p.detectors.takeWhile fun d => p.isWritten d.offsets).length =
        p.detectors.filter (fun d => !p.isWritten d.offsets) := by
  refine takeWhile_eq_filter (h.sorted.imp_of_mem fun {a b} ha hb hle hwritten => ?_)
  obtain ⟨x, hx, -⟩ := (h.due_detector ha).last
  obtain ⟨y, hy, -⟩ := (h.due_detector hb).last
  rw [List.headD_eq_head?_getD, List.headD_eq_head?_getD, hx, hy] at hle
  rw [Pending.isWritten, hx, Option.any_some, Pending.shift, decide_eq_true_eq]
  rw [Pending.isWritten, hy, Option.any_some, Pending.shift, decide_eq_true_eq] at hwritten
  exact lt_of_le_of_lt (Int.add_le_add_right hle _) hwritten

theorem Waiting.writeDetectors (h : Waiting total n p) (c : Circuit) :
    (p.writeDetectors c).1.filterMap Line.reference? =
        (p.detectors.filter fun d => p.isWritten d.offsets).map
          (fun d => (none, d.offsets.map p.shift)) ∧
      (p.writeDetectors c).2.measurements = p.measurements ∧
      (p.writeDetectors c).2.detectors =
        p.detectors.filter (fun d => !p.isWritten d.offsets) ∧
      (p.writeDetectors c).2.observables = p.observables := by
  obtain ⟨hfront, hrest⟩ := h.front
  unfold Pending.writeDetectors
  dsimp only
  rw [hfront] at hrest ⊢
  rw [hrest]
  obtain ⟨hmeasurements, hdetectors, hobservables⟩ := Pending.labelDetectors_keeps c p.time
    { p with detectors := p.detectors.filter (fun d => !p.isWritten d.offsets) }
    (p.detectors.filter fun d => p.isWritten d.offsets)
  exact ⟨Pending.reference?_labelDetectors .., hmeasurements, hdetectors, hobservables⟩

/-- The observables that are written are those whose measurements are. -/
theorem Pending.writeObservables_eq {p : Pending} (h : ∀ e ∈ p.observables, e.2 ≠ []) :
    p.writeObservables.1.filterMap Line.reference? =
        (p.observables.filter fun e => p.isWritten e.2).map
          (fun e => (some e.1, e.2.map p.shift)) ∧
      p.writeObservables.2 =
        { p with observables := p.observables.filter fun e => !p.isWritten e.2 } := by
  have hready : ∀ e ∈ p.observables, (e.2.isEmpty || p.isWritten e.2) = p.isWritten e.2 := by
    intro e he
    rw [List.isEmpty_eq_false_iff.2 (h e he), Bool.false_or]
  unfold Pending.writeObservables
  dsimp only
  rw [List.filter_congr hready, List.filter_congr fun e he => congrArg (!·) (hready e he)]
  refine ⟨?_, rfl⟩
  rw [List.filterMap_map]
  exact congrFun List.filterMap_eq_map _

theorem Pending.shift_congr {p q : Pending} (h : q.measurements = p.measurements) :
    q.shift = p.shift := funext fun o => congrArg (o + ·) h

theorem Pending.isWritten_congr {p q : Pending} (h : q.measurements = p.measurements) :
    q.isWritten = p.isWritten := by
  funext offsets
  rw [Pending.isWritten, Pending.isWritten, Pending.shift_congr h]

/-- The detectors that are written, followed by the others, are the detectors in order. -/
theorem Waiting.written_append_left (h : Waiting total n p) :
    (p.detectors.filter fun d => p.isWritten d.offsets) ++
      (p.detectors.filter fun d => !p.isWritten d.offsets) = p.detectors := by
  obtain ⟨hfront, hrest⟩ := h.front
  rw [← hfront, ← hrest]
  exact (List.prefix_append_drop (List.takeWhile_prefix _)).symm

/-- Behind a layer that completes the record up to `n'`, exactly the entries whose measurements are
all written follow, the detectors in order; the others stay pending. -/
theorem Waiting.step (h : Waiting total n p) (hp : p.measurements = (total : Int) - n')
    (c : Circuit) :
    let written := p.writeDetectors c
    let left := written.2.writeObservables
    ∃ ready, (written.1 ++ left.1).filterMap Line.reference? =
        ready.map (fun e => (e.1, e.2.map p.shift)) ∧
      (ready ++ left.2.entries).Perm p.entries ∧
      (ready ++ left.2.entries).filter (·.1.isNone) = p.entries.filter (·.1.isNone) ∧
      (∀ e ∈ ready, Due total n e ∧ ∀ o ∈ e.2, (total : Int) + o < n') ∧
      Waiting total n' left.2 ∧ left.2.measurements = (total : Int) - n' := by
  intro written left
  obtain ⟨hlines, hmeasurements, hdetectors, hobservables⟩ := h.writeDetectors c
  have hne : ∀ e ∈ written.2.observables, e.2 ≠ [] := by
    intro e he hnil
    obtain ⟨last, hlast, -⟩ := (h.due_observable (hobservables ▸ he)).last
    rw [hnil] at hlast
    cases hlast
  obtain ⟨hmore, hleft⟩ := Pending.writeObservables_eq hne
  rw [Pending.shift_congr hmeasurements, Pending.isWritten_congr hmeasurements,
    hobservables] at hmore
  rw [Pending.isWritten_congr hmeasurements, hobservables] at hleft
  have hentries : left.2.entries = p.entries.filter fun e => !p.isWritten e.2 := by
    rw [p.filter_entries_offsets fun os => !p.isWritten os, Pending.entries, hleft, hdetectors]
  refine ⟨p.entries.filter fun e => p.isWritten e.2, ?_, ?_, ?_, fun e he => ?_,
    ⟨fun e he => ?_, ?_⟩, ?_⟩
  · rw [p.filter_entries_offsets p.isWritten, List.filterMap_append, hlines, hmore, List.map_append,
      List.map_map, List.map_map]
    rfl
  · rw [hentries]
    exact List.filter_append_perm _ _
  · have hready : (p.entries.filter fun e => p.isWritten e.2).filter (·.1.isNone) =
        (p.detectors.filter fun d => p.isWritten d.offsets).map (fun d => (none, d.offsets)) := by
      rw [List.filter_filter, List.filter_congr fun e _ => Bool.and_comm _ _, ← List.filter_filter,
        Pending.filter_entries, List.filter_map]
      rfl
    rw [List.filter_append, hready, Pending.filter_entries, Pending.filter_entries, hleft]
    dsimp only
    rw [hdetectors, ← List.map_append, h.written_append_left]
  · obtain ⟨he, hwritten⟩ := List.mem_filter.1 he
    rcases (h.due e he).isWritten hp with ⟨-, hbefore⟩ | ⟨hnot, -⟩
    · exact ⟨h.due e he, hbefore⟩
    · rw [hnot] at hwritten
      cases hwritten
  · rw [hentries] at he
    obtain ⟨he, hnot⟩ := List.mem_filter.1 he
    rcases (h.due e he).isWritten hp with ⟨hwritten, -⟩ | ⟨-, hdue⟩
    · rw [hwritten] at hnot
      cases hnot
    · exact hdue
  · rw [hleft, hdetectors]
    exact h.sorted.filter _
  · rw [hleft]
    exact hmeasurements.trans hp

/-- The operations that are written of layers, the first of which stands at position `k`. -/
def operationsFrom (k : Nat) (layers : List Layer) : List (Nat × Operation) :=
  (layers.zipIdx k).flatMap fun e => (writtenOf e.1).map (e.2, ·)

theorem operationsFrom_cons (k : Nat) (l : Layer) (rest : List Layer) :
    operationsFrom k (l :: rest) =
      (writtenOf l).map (k, ·) ++ operationsFrom (k + 1) rest := by
  rw [operationsFrom, List.zipIdx_cons, List.flatMap_cons, operationsFrom]

theorem le_of_mem_operationsFrom {k : Nat} {layers : List Layer} {e : Nat × Operation}
    (h : e ∈ operationsFrom k layers) : k ≤ e.1 := by
  obtain ⟨entry, hentry, he⟩ := List.mem_flatMap.1 h
  obtain ⟨op, -, rfl⟩ := List.mem_map.1 he
  exact List.le_snd_of_mem_zipIdx hentry

/-- A mention that stands for an entry, where `all` is written in the end. -/
structure Fits (total : Nat) (all : List (Nat × Operation)) (m : Mention)
    (entry : Option Nat × List Int) : Prop where
  index : m.index = entry.1
  offsets : m.offsets = entry.2.map fun o => o + ((total : Int) - (recordOf m.before).length)
  due : Due total (recordOf (all.filter (·.1 < m.layer))).length entry
  written : ∀ o ∈ entry.2, (total : Int) + o < (recordOf m.before).length
  before : m.before = all.filter (·.1 ≤ m.layer)
  later : ∃ later, all = m.before ++ later
  since : ∃ since, all = all.filter (·.1 < m.layer) ++ since ∧ ∀ e ∈ since, m.layer ≤ e.1

theorem recordOf_map (k : Nat) (ops : List Operation) :
    recordOf (ops.map (k, ·)) = (ops.filter Operation.isMeasurement).map (k, ·) := by
  rw [recordOf, List.filter_map]
  rfl

theorem total_measurements (ops : List Operation) :
    Numeric.total (ops.map Operation.measurements) = ops.countP Operation.isMeasurement := by
  induction ops with
  | nil => rfl
  | cons op rest ih =>
      rw [List.map_cons, Numeric.total, ih, List.countP_cons, Operation.measurements, Nat.add_comm]

theorem countP_writtenOf (h : l.Filed) :
    (writtenOf l).countP Operation.isMeasurement = l.writtenMeasurements := by
  have hmarkers : ∀ {ops : List Operation}, (∀ op ∈ ops, op ∈ l.markers.toList) →
      ops.countP Operation.isMeasurement = 0 := by
    intro ops hops
    refine List.countP_eq_zero.2 fun op hop => ?_
    rw [Tape.isMeasurement_of_isMarker (h.markers op (hops op hop))]
    exact Bool.false_ne_true
  rw [writtenOf, Layer.writtenMeasurements, total_measurements, Layer.operationsAndMarkers,
    List.countP_append, List.countP_append, (Layer.grouped_perm _).countP_eq,
    hmarkers fun op hop => hop, hmarkers fun op hop =>
      (Layer.grouped_perm _).mem_iff.1 (List.mem_of_mem_filter hop)]

theorem filter_lt {k : Nat} {before : List (Nat × Operation)} (h : ∀ e ∈ before, e.1 < k)
    (layers : List Layer) :
    (before ++ operationsFrom k layers).filter (·.1 < k) = before := by
  have hlater : (operationsFrom k layers).filter (·.1 < k) = [] :=
    List.filter_eq_nil_iff.2 fun e he => by
      simpa using le_of_mem_operationsFrom he
  rw [List.filter_append, hlater, List.append_nil,
    List.filter_eq_self.2 fun e he => decide_eq_true (h e he)]

/-- What is written behind layer `k` for an entry that this layer completes. -/
theorem fits_of_written {k : Nat} {before behind : List (Nat × Operation)}
    {rest layers : List Layer} (hbefore : ∀ e ∈ before, e.1 < k) (hbehind : ∀ e ∈ behind, e.1 < k + 1)
    (hall : before ++ operationsFrom k layers = behind ++ operationsFrom (k + 1) rest)
    (hp : p.measurements = (total : Int) - (recordOf behind).length)
    {e : Option Nat × List Int} (hdue : Due total (recordOf before).length e)
    (hwritten : ∀ o ∈ e.2, (total : Int) + o < (recordOf behind).length) :
    Fits total (behind ++ operationsFrom (k + 1) rest) ⟨e.1, e.2.map p.shift, k, behind⟩ e where
  index := rfl
  offsets := by
    rw [← hp]
    rfl
  due := by rwa [← hall, filter_lt hbefore]
  written := hwritten
  before := by
    conv_lhs => rw [← filter_lt hbehind rest]
    simp only [Nat.lt_succ_iff]
  later := ⟨_, rfl⟩
  since := ⟨operationsFrom k layers, by rw [← hall, filter_lt hbefore],
    fun _ => le_of_mem_operationsFrom⟩

/-- Layer by layer, each entry is written once, behind the layer that completes it. -/
theorem fits_bodyLines {c : Circuit} {d : Detail} {layers : List Layer}
    (htells : ∀ l ∈ layers, Tells l) {k : Nat} {before : List (Nat × Operation)}
    (hbefore : ∀ e ∈ before, e.1 < k) {p : Pending}
    (htotal : (recordOf (before ++ operationsFrom k layers)).length = total)
    (hwaiting : Waiting total (recordOf before).length p)
    (hp : p.measurements = (total : Int) - (recordOf before).length) :
    ∃ entries, entries.Perm p.entries ∧
      entries.filter (·.1.isNone) = p.entries.filter (·.1.isNone) ∧
      List.Forall₂ (Fits total (before ++ operationsFrom k layers))
        (mentions k before (bodyLines c d p layers)) entries := by
  induction layers generalizing k before p with
  | nil =>
      -- Nothing can be due once the whole record is written.
      have hnone : p.entries = [] := by
        refine List.eq_nil_iff_forall_not_mem.2 fun e he => ?_
        obtain ⟨last, hlast, hle⟩ := (hwaiting.due e he).last
        have hneg := ((hwaiting.due e he).range last (List.mem_of_head? hlast)).1
        rw [operationsFrom, List.zipIdx_nil, List.flatMap_nil, List.append_nil] at htotal
        omega
      exact ⟨[], by rw [hnone], by rw [hnone], .nil⟩
  | cons l rest ih =>
      obtain ⟨hl, hrest⟩ := List.forall_mem_cons.1 htells
      have hall : before ++ operationsFrom k (l :: rest) =
          (before ++ (writtenOf l).map (k, ·)) ++ operationsFrom (k + 1) rest := by
        rw [operationsFrom_cons, List.append_assoc]
      have hcount : (recordOf (before ++ (writtenOf l).map (k, ·))).length =
          (recordOf before).length + l.writtenMeasurements := by
        rw [recordOf_append, List.length_append, recordOf_map, List.length_map,
          ← List.countP_eq_length_filter, countP_writtenOf hl.filed]
      have hadvanced : (p.advance l).measurements =
          (total : Int) - (recordOf (before ++ (writtenOf l).map (k, ·))).length := by
        change p.measurements - l.writtenMeasurements = _
        rw [hcount, hp]
        omega
      have hbehind : ∀ e ∈ before ++ (writtenOf l).map (k, ·), e.1 < k + 1 := by
        intro e he
        rcases List.mem_append.1 he with he | he
        · exact Nat.lt_succ_of_lt (hbefore e he)
        · obtain ⟨op, -, rfl⟩ := List.mem_map.1 he
          exact Nat.lt_succ_self k
      have hdue : Waiting total (recordOf before).length (p.advance l) :=
        ⟨hwaiting.due, hwaiting.sorted⟩
      obtain ⟨ready, hlines, hperm, horder, hready, hnext, hleft⟩ := hdue.step hadvanced c
      rw [hall] at htotal ⊢
      obtain ⟨entries, hentries, hsame, hfits⟩ := ih hrest hbehind htotal hnext hleft
      refine ⟨ready ++ entries, (hentries.append_left ready).trans hperm, ?_, ?_⟩
      · rw [List.filter_append, hsame, ← List.filter_append]
        exact horder
      have hsilent : Silent (((p.advance l).writeDetectors c).1 ++
          ((p.advance l).writeDetectors c).2.writeObservables.1) := fun line hline =>
        (List.mem_append.1 hline).elim (silent_writeDetectors c _ line)
          (silent_writeObservables _ line)
      rw [bodyLines_cons, mentions_layerLines d hl, ← List.append_assoc, mentions_silent hsilent,
        hlines, List.map_map, mentions_tick]
      refine List.rel_append ?_ ?_
      · rw [List.forall₂_map_left_iff, List.forall₂_same]
        intro e he
        obtain ⟨hedue, hewritten⟩ := hready e he
        exact fits_of_written hbefore hbehind hall hadvanced hedue hewritten
      · exact hfits

/-- Where a measurement is found, and the qubits it acts on. -/
def siteOf (e : Nat × Operation) : Site × List QubitId :=
  (⟨e.1, e.2.targets.headD 0⟩, e.2.targets)

theorem stage_eq_map {ops : List Operation} (h : ∀ op ∈ ops, op.targets ≠ []) (k : Nat) :
    stage k ops = (recordOf (ops.map (k, ·))).map siteOf := by
  rw [stage, recordOf_map, List.map_map, ← List.filterMap_eq_map]
  refine List.filterMap_congr fun op hop => ?_
  obtain ⟨q, rest, htargets⟩ := List.exists_cons_of_ne_nil (h op (List.mem_of_mem_filter hop))
  simp [siteOf, htargets]

theorem recordOf_writtenOf (h : l.Filed) (k : Nat) :
    recordOf ((writtenOf l).map (k, ·)) =
      recordOf ((Layer.grouped l.operations.toList).map (k, ·)) := by
  have hmarkers : recordOf (((Layer.grouped l.markers.toList).filter fun op => IsWritten op).map
      (k, ·)) = [] := by
    rw [recordOf_map, List.filter_eq_nil_iff.2, List.map_nil]
    intro op hop
    have hop := (Layer.grouped_perm _).mem_iff.1 (List.mem_of_mem_filter hop)
    rw [Tape.isMeasurement_of_isMarker (h.markers op hop)]
    exact Bool.false_ne_true
  rw [writtenOf, List.map_append, recordOf_append, hmarkers, List.append_nil]

/-- The record of the written lines is the record that measurements are collected from. -/
theorem recordIn_output_eq {layers : List Layer} (h : ∀ l ∈ layers, l.Filed ∧
    ∀ op ∈ l.operations.toList, op.targets ≠ []) (k : Nat) :
    Circuit.recordIn .output k layers = (recordOf (operationsFrom k layers)).map siteOf := by
  induction layers generalizing k with
  | nil => rfl
  | cons l rest ih =>
      obtain ⟨⟨hfiled, htargets⟩, hrest⟩ := List.forall_mem_cons.1 h
      rw [operationsFrom_cons, recordOf_append, List.map_append, ← ih hrest (k + 1),
        recordOf_writtenOf hfiled, ← stage_eq_map fun op hop =>
          htargets op ((Layer.grouped_perm _).mem_iff.1 hop), ← Layer.stage_output hfiled]
      rfl

end Emission

namespace Build

open Emission

variable {text : String}

/-- Measurement `e` has the number `i` when the detectors of a circuit are collected for its text. -/
def Numbered (c : Circuit) (i : Nat) (e : Nat × Operation) : Prop :=
  ∃ l, c.layers[e.1]? = some l ∧ e.2 ∈ l.operations.toList ∧ e.2.isMeasurement ∧
    ∃ q, e.2.targets.head? = some q ∧
      Circuit.measurementAt .output c.layers ⟨e.1, q⟩ = some ⟨i, e.2.targets⟩

theorem recordIn_parse (text : String) :
    Circuit.recordIn .output 0 (parse text).circuit.layers =
      (recordOf (operationsFrom 0 (parse text).circuit.layers)).map siteOf :=
  recordIn_output_eq (fun _ hl => ⟨filed_parse hl, fun op hop =>
    ((sound_parse text hl).placeable op hop).targets_ne_nil⟩) 0

theorem length_recordOf_parse (text : String) :
    (recordOf (operationsFrom 0 (parse text).circuit.layers)).length =
      (parse text).circuit.measurements := by
  rw [← length_record_output, recordIn_parse, List.length_map]

/-- The measurements of a layer on a common qubit are one and the same. -/
theorem eq_of_measuring {l : Layer} (hl : l ∈ (parse text).circuit.layers) {a b : Operation}
    (ha : a ∈ l.operations.toList) (hb : b ∈ l.operations.toList) (hmeasures : a.isMeasurement)
    {q : QubitId} (hqa : q ∈ a.targets) (hqb : q ∈ b.targets) : a = b := by
  by_contra hne
  have hnot := ((sound_parse text hl).compatible.forall ha hb hne ⟨q, hqa, hqb⟩).2.2.2.2
  rw [hmeasures] at hnot
  cases hnot

theorem mem_recordOf_parse {e : Nat × Operation}
    (h : e ∈ recordOf (operationsFrom 0 (parse text).circuit.layers)) :
    ∃ l, (parse text).circuit.layers[e.1]? = some l ∧ e.2 ∈ l.operations.toList ∧
      e.2.isMeasurement := by
  obtain ⟨hmem, hmeasures⟩ := List.mem_filter.1 h
  obtain ⟨⟨l, k⟩, hentry, he⟩ := List.mem_flatMap.1 hmem
  obtain ⟨op, hop, rfl⟩ := List.mem_map.1 he
  have hl := List.mem_zipIdx_iff_getElem?.1 hentry
  refine ⟨l, hl, ?_, hmeasures⟩
  rcases List.mem_append.1 hop with hop | hop
  · exact (Layer.grouped_perm _).mem_iff.1 hop
  · have hop := (Layer.grouped_perm _).mem_iff.1 (List.mem_of_mem_filter hop)
    have hmarker := (filed_parse (List.mem_of_getElem? hl)).markers op hop
    rw [Tape.isMeasurement_of_isMarker hmarker] at hmeasures
    cases hmeasures

/-- The number of a measurement is its position in the record of the written lines. -/
theorem numbered_iff {i : Nat} {e : Nat × Operation} :
    Numbered (parse text).circuit i e ↔
      (recordOf (operationsFrom 0 (parse text).circuit.layers))[i]? = some e := by
  constructor
  · rintro ⟨l, hl, hop, hmeasures, q, hq, hfound⟩
    rw [Circuit.measurementAt_eq_some_iff (separated_output text), recordIn_parse,
      List.getElem?_map, Option.map_eq_some_iff] at hfound
    obtain ⟨⟨k, op⟩, hi, hsite⟩ := hfound
    obtain ⟨l', hl', hop', hmeasures'⟩ := mem_recordOf_parse (List.mem_of_getElem? hi)
    simp only [siteOf, Prod.mk.injEq, Site.mk.injEq] at hsite
    obtain ⟨⟨rfl, -⟩, htargets⟩ := hsite
    rw [hl] at hl'
    cases hl'
    have hmem := List.mem_of_head? hq
    have heq : op = e.2 :=
      eq_of_measuring (List.mem_of_getElem? hl) hop' hop hmeasures' (htargets ▸ hmem) hmem
    rw [hi, heq]
  · intro hi
    obtain ⟨l, hl, hop, hmeasures⟩ := mem_recordOf_parse (List.mem_of_getElem? hi)
    have hne := ((sound_parse text (List.mem_of_getElem? hl)).placeable e.2 hop).targets_ne_nil
    obtain ⟨q, rest, htargets⟩ := List.exists_cons_of_ne_nil hne
    refine ⟨l, hl, hop, hmeasures, q, by rw [htargets]; rfl, ?_⟩
    rw [Circuit.measurementAt_eq_some_iff (separated_output text), recordIn_parse,
      List.getElem?_map, hi]
    simp [siteOf, htargets]

/-- A reference that finds something finds a measurement of the record. -/
theorem exists_site_of_reference {order : RecordOrder} {name : String} {r : Circuit.Reference} {m : Measured}
    (hr : r ∈ Circuit.references name (Circuit.measuredFrom order 0 (parse text).circuit.layers))
    (hm : r.measured = some m) :
    ∃ site, (Circuit.recordIn order 0 (parse text).circuit.layers)[m.number]? =
      some (site, m.qubits) := by
  obtain ⟨entry, hentry, hr⟩ := List.mem_flatMap.1 hr
  obtain ⟨op, -, rfl⟩ := List.mem_map.1 hr
  obtain ⟨q, -, hq⟩ := Option.bind_eq_some_iff.1 hm
  obtain ⟨j, hj⟩ := List.mem_iff_getElem?.1 hentry
  have hfound : Circuit.measurementAt order (parse text).circuit.layers ⟨j, q⟩ = some m := by
    rw [Circuit.measurementAt, hj]
    exact hq
  exact ⟨_, (Circuit.measurementAt_eq_some_iff (separated_of_order text order)).1 hfound⟩

theorem number_lt_of_reference {order : RecordOrder} {name : String} {r : Circuit.Reference} {m : Measured}
    (hr : r ∈ Circuit.references name (Circuit.measuredFrom order 0 (parse text).circuit.layers))
    (hm : r.measured = some m) : m.number < (parse text).circuit.measurements := by
  obtain ⟨site, hsite⟩ := exists_site_of_reference hr hm
  rw [← length_record_of_order text order]
  exact (List.getElem?_eq_some_iff.1 hsite).1

theorem due_of_offsets {found : List Measured} (hne : found ≠ [])
    (hfound : ∀ m ∈ found, m.number < (parse text).circuit.measurements) (index : Option Nat) :
    Due (parse text).circuit.measurements 0
      (index, Circuit.offsets (parse text).circuit.measurements found) := by
  have hrange : ∀ o ∈ Circuit.offsets (parse text).circuit.measurements found,
      o < 0 ∧ 0 ≤ ((parse text).circuit.measurements : Int) + o := by
    intro o ho
    obtain ⟨m, hm, rfl⟩ := Circuit.mem_offsets.1 ho
    have hlt := hfound m hm
    omega
  refine ⟨hrange, Circuit.descending_pairwise _, ?_⟩
  obtain ⟨m, rest, rfl⟩ := List.exists_cons_of_ne_nil hne
  have hmem : (m.number : Int) - (parse text).circuit.measurements ∈
      Circuit.offsets (parse text).circuit.measurements (m :: rest) :=
    Circuit.mem_offsets.2 ⟨m, List.mem_cons_self, rfl⟩
  obtain ⟨last, more, heq⟩ := List.exists_cons_of_ne_nil (List.ne_nil_of_mem hmem)
  refine ⟨last, by rw [heq]; rfl, ?_⟩
  exact (hrange last (heq ▸ List.mem_cons_self)).2

theorem total_measuredFrom_parse (order : RecordOrder) (text : String) :
    total ((Circuit.measuredFrom order 0 (parse text).circuit.layers).map (·.2.size)) =
      (parse text).circuit.measurements := by
  rw [Circuit.total_measuredFrom (separated_of_order text order) 0 0, length_record_of_order]

/-- What a collected detector is made of. -/
theorem exists_references_of_detector {order : RecordOrder} {d : Detector}
    (h : d ∈ ((parse text).circuit.detectors order).detectors) :
    ∃ found, found ≠ [] ∧ d.offsets = Circuit.offsets (parse text).circuit.measurements found ∧
      d.qubits = found.flatMap (·.qubits) ∧
        ∀ m ∈ found, ∃ r ∈ Circuit.references detectorName
          (Circuit.measuredFrom order 0 (parse text).circuit.layers), r.measured = some m := by
  unfold Circuit.detectors at h
  dsimp only at h
  rw [total_measuredFrom_parse, List.mem_mergeSort] at h
  obtain ⟨entry, hentry, hd⟩ := List.mem_filterMap.1 ((eraseDupsBy_sublist _ _).subset h)
  split_ifs at hd with hempty
  cases hd
  refine ⟨entry.2, fun hnil => hempty (by rw [hnil]; rfl), rfl, rfl, fun m hm => ?_⟩
  rw [(Circuit.mem_bySlot.1 hentry).2] at hm
  obtain ⟨r, hr, -, hmeasured⟩ := Circuit.mem_gathered.1 hm
  exact ⟨r, hr, hmeasured⟩

theorem due_detector {order : RecordOrder} {d : Detector}
    (h : d ∈ ((parse text).circuit.detectors order).detectors) :
    Due (parse text).circuit.measurements 0 (none, d.offsets) := by
  obtain ⟨found, hne, hoffsets, -, hfound⟩ := exists_references_of_detector h
  rw [hoffsets]
  refine due_of_offsets hne (fun m hm => ?_) none
  obtain ⟨r, hr, hmeasured⟩ := hfound m hm
  exact number_lt_of_reference hr hmeasured

/-- A detector lies on qubits that the circuit acts on. -/
theorem active_of_detector {d : Detector}
    (h : d ∈ ((parse text).circuit.detectors .output).detectors) :
    ∀ q ∈ d.qubits, q ∈ (parse text).circuit.activeQubits := by
  intro q hq
  obtain ⟨found, -, -, hqubits, hfound⟩ := exists_references_of_detector h
  rw [hqubits] at hq
  obtain ⟨m, hm, hq⟩ := List.mem_flatMap.1 hq
  obtain ⟨r, hr, hmeasured⟩ := hfound m hm
  obtain ⟨site, hsite⟩ := exists_site_of_reference hr hmeasured
  rw [recordIn_parse, List.getElem?_map, Option.map_eq_some_iff] at hsite
  obtain ⟨e, he, heq⟩ := hsite
  obtain ⟨l, hl, hop, -⟩ := mem_recordOf_parse (List.mem_of_getElem? he)
  have htargets : e.2.targets = m.qubits := congrArg Prod.snd heq
  rw [← htargets] at hq
  exact mem_activeQubits.2
    ⟨l, List.mem_of_getElem? hl, e.2, List.mem_append_left _ hop, hq⟩

/-- Every observable names a measurement. -/
theorem observable_ne_nil {order : RecordOrder} {e : Nat × List Int}
    (h : e ∈ ((parse text).circuit.detectors order).observables) : e.2 ≠ [] := by
  obtain ⟨⟨move, hmove, hslot, hsites⟩, -, hoffsets⟩ :=
    (mem_observables_parse (separated_of_order text order)).1 (show (e.1, e.2) ∈ _ from h)
  obtain ⟨site, rest, hcons⟩ := List.exists_cons_of_ne_nil hsites
  have hsite : site ∈ (tapeOf text).sitesOf move.2 := by
    rw [hcons]
    exact List.mem_cons_self
  obtain ⟨m, hm⟩ := Option.isSome_iff_exists.1
    (retrieved_of_order text order site (mem_record_of_mem_sitesOf text hsite))
  exact List.ne_nil_of_mem ((hoffsets _).2 ⟨move, hmove, hslot, site, hsite, m, hm, rfl⟩)

theorem due_observable {order : RecordOrder} {e : Nat × List Int}
    (h : e ∈ ((parse text).circuit.detectors order).observables) :
    Due (parse text).circuit.measurements 0 (some e.1, e.2) := by
  have hne := observable_ne_nil h
  unfold Circuit.detectors at h
  dsimp only at h
  rw [total_measuredFrom_parse] at h
  obtain ⟨entry, hentry, rfl⟩ := List.mem_map.1 h
  refine due_of_offsets (fun hnil => hne ?_) (fun m hm => ?_) _
  · dsimp only
    rw [hnil]
    simp [Circuit.offsets, Circuit.descending]
  · rw [(Circuit.mem_bySlot.1 hentry).2] at hm
    obtain ⟨r, hr, -, hmeasured⟩ := Circuit.mem_gathered.1 hm
    obtain ⟨r', hr', rfl⟩ := List.mem_map.1 hr
    exact number_lt_of_reference hr' hmeasured

theorem waiting_parse (text : String) :
    Waiting (parse text).circuit.measurements 0 (.ofCircuit (parse text).circuit) where
  due e he := by
    rcases List.mem_append.1 he with he | he
    · obtain ⟨d, hd, rfl⟩ := List.mem_map.1 he
      exact due_detector hd
    · obtain ⟨entry, hentry, rfl⟩ := List.mem_map.1 he
      exact due_observable hentry
  sorted := by
    refine (List.pairwise_mergeSort (fun a b c hab hbc => ?_) (fun a b => ?_) _).imp
      fun h => of_decide_eq_true h
    · rw [decide_eq_true_eq] at hab hbc ⊢
      exact Int.le_trans hab hbc
    · rw [Bool.or_eq_true, decide_eq_true_eq, decide_eq_true_eq]
      exact Int.le_total _ _

theorem fits_lines (text : String) (d : Detail) :
    ∃ entries, entries.Perm (Pending.ofCircuit (parse text).circuit).entries ∧
      entries.filter (·.1.isNone) =
        (Pending.ofCircuit (parse text).circuit).entries.filter (·.1.isNone) ∧
      List.Forall₂ (Fits (parse text).circuit.measurements
          (operationsFrom 0 (parse text).circuit.layers))
        (mentions 0 [] (lines (parse text).circuit d)) entries := by
  obtain ⟨n, hn⟩ := exists_ticks (parse text).circuit d
  have hheader : (headerLines (parse text).circuit d).filterMap Line.reference? = [] := by
    refine List.filterMap_eq_nil_iff.2 fun line hline => ?_
    obtain ⟨-, sheet, -, rfl⟩ | ⟨q, -, rfl⟩ := headerLines_cases hline <;> rfl
  rw [← mentions_ticks 0 [] _ n, ← hn, mentions_silent (silent_headerLines _ d), hheader]
  exact fits_bodyLines (fun _ hl => tells_parse hl) (fun _ he => absurd he List.not_mem_nil)
    (length_recordOf_parse text) (waiting_parse text) (Int.sub_zero _).symm

variable {total : Nat} {all : List (Nat × Operation)} {m : Mention}
  {entry : Option Nat × List Int}

/-- What a mention counts back to is what its entry counts back to from the end of the record. -/
theorem denotes_iff (h : Fits total all m entry) {e : Nat × Operation} :
    m.Denotes e ↔ ∃ i : Nat, (i : Int) - total ∈ entry.2 ∧ (recordOf all)[i]? = some e := by
  obtain ⟨later, hlater⟩ := h.later
  have hstart : ∀ i < (recordOf m.before).length,
      (recordOf all)[i]? = (recordOf m.before)[i]? := by
    intro i hi
    rw [hlater, recordOf_append, List.getElem?_append_left hi]
  have hmem : ∀ i : Nat, -(i : Int) ∈ m.offsets ↔
      ((recordOf m.before).length : Int) - i - total ∈ entry.2 := by
    intro i
    rw [h.offsets, List.mem_map]
    constructor
    · rintro ⟨o, ho, heq⟩
      rwa [show ((recordOf m.before).length : Int) - i - total = o by omega]
    · exact fun ho => ⟨_, ho, by omega⟩
  constructor
  · rintro ⟨k, hpos, hle, hk, he⟩
    refine ⟨(recordOf m.before).length - k, ?_, ?_⟩
    · rw [Int.ofNat_sub hle]
      exact (hmem k).1 hk
    · rw [hstart _ (by omega), he]
  · rintro ⟨i, hi, he⟩
    have hlt : i < (recordOf m.before).length := by
      have := h.written _ hi
      omega
    refine ⟨(recordOf m.before).length - i, by omega, by omega, ?_, ?_⟩
    · rw [hmem, Int.ofNat_sub hlt.le]
      rwa [show ((recordOf m.before).length : Int) - ((recordOf m.before).length - i) - total =
        i - total by omega]
    · rw [Nat.sub_sub_self hlt.le, ← hstart i hlt, he]

theorem range_of_fits (h : Fits total all m entry) :
    ∀ o ∈ m.offsets, ∃ k : Nat, 1 ≤ k ∧ k ≤ (recordOf m.before).length ∧ o = -k := by
  intro o ho
  rw [h.offsets] at ho
  obtain ⟨o, hmem, rfl⟩ := List.mem_map.1 ho
  have hwritten := h.written o hmem
  have hrange := h.due.range o hmem
  exact ⟨((recordOf m.before).length - (total + o)).toNat, by omega, by omega, by omega⟩

/-- A mention follows the layer that holds the last of its measurements. -/
theorem exists_latest (h : Fits total all m entry) : ∃ e, m.Denotes e ∧ e.1 = m.layer := by
  obtain ⟨last, hlast, hle⟩ := h.due.last
  have hmem := List.mem_of_head? hlast
  have hwritten := h.written last hmem
  obtain ⟨i, hi⟩ := Int.eq_ofNat_of_zero_le (h.due.range last hmem).2
  have hlt : i < (recordOf m.before).length := by omega
  obtain ⟨later, hlater⟩ := h.later
  have hfound : (recordOf all)[i]? = some (recordOf m.before)[i] := by
    rw [hlater, recordOf_append, List.getElem?_append_left hlt, List.getElem?_eq_getElem hlt]
  refine ⟨(recordOf m.before)[i], (denotes_iff h).2 ⟨i, ?_, hfound⟩, Nat.le_antisymm ?_ ?_⟩
  · rwa [show (i : Int) - total = last by omega]
  · have hlayer : ∀ e ∈ m.before, e.1 ≤ m.layer := fun e he => by
      rw [h.before] at he
      exact of_decide_eq_true (List.mem_filter.1 he).2
    exact hlayer _ (List.mem_of_mem_filter (List.getElem_mem hlt))
  · obtain ⟨since, hsince, hlayer⟩ := h.since
    have hbehind : (recordOf (all.filter (·.1 < m.layer))).length ≤ i := by omega
    rw [hsince, recordOf_append, List.getElem?_append_right hbehind] at hfound
    exact hlayer _ (List.mem_of_mem_filter (List.mem_of_getElem? hfound))

/-- A detector or an observable that is written for the collected entry of circuit `c`, where `all` is
written in the end. -/
structure Placed (c : Circuit) (all : List (Nat × Operation)) (m : Mention)
    (entry : Option Nat × List Int) : Prop where
  index : m.index = entry.1
  /-- It counts back to measurements that are written before it. -/
  range : ∀ o ∈ m.offsets, ∃ k : Nat, 1 ≤ k ∧ k ≤ (recordOf m.before).length ∧ o = -k
  /-- These are the measurements that it was collected with. -/
  denotes : ∀ e, m.Denotes e ↔
    ∃ i : Nat, (i : Int) - c.measurements ∈ entry.2 ∧ Numbered c i e
  /-- What is written before it are the layers up to its own. -/
  before : m.before = all.filter (·.1 ≤ m.layer)
  /-- It had to wait for its own layer. -/
  latest : ∃ e, m.Denotes e ∧ e.1 = m.layer

/-- What a mention counts back to in the record of the written lines is found by its number. -/
theorem placed_of_fits (d : Detail)
    (h : Fits (parse text).circuit.measurements (operationsFrom 0 (parse text).circuit.layers) m entry) :
    Placed (parse text).circuit (written 0 (lines (parse text).circuit d)) m entry := by
  have hall : written 0 (lines (parse text).circuit d) =
      operationsFrom 0 (parse text).circuit.layers := written_parse text d
  refine ⟨h.index, range_of_fits h, fun e => ?_, hall ▸ h.before, exists_latest h⟩
  simp only [denotes_iff h, numbered_iff]

end Build

end StimOverlay
