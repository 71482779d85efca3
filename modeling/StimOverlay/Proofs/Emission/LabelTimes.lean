import StimOverlay.Proofs.Checked.WritingLookups

/-! Times of labels. The search for a label has no bound of its own: it goes round and round the places,
at one time after another, and ends because there are fewer used labels than times. All labels of a layer
are sought from one time on, which the layers before it have left behind, so that no label is written
twice and time goes forward from layer to layer. -/

namespace StimOverlay

namespace Emission

/-- The search for a label from position `k` of the places on: behind the last place it goes back to
the first one, at the next time. It ends with the first label that is not used. -/
inductive Searches (used : Std.TreeSet String) (places : List Point) : Nat → Nat → Label → Prop where
  | around {k time : Nat} {label : Label} (behind : places.length ≤ k)
      (rest : Searches used places 0 (time + 1) label) : Searches used places k time label
  | taken {k time : Nat} {place : Point} {label : Label} (at_k : places[k]? = some place)
      (used_up : used.contains (Label.text ⟨place.text, time⟩) = true)
      (rest : Searches used places (k + 1) time label) : Searches used places k time label
  | found {k time : Nat} {place : Point} (at_k : places[k]? = some place)
      (free : used.contains (Label.text ⟨place.text, time⟩) = false) :
      Searches used places k time ⟨place.text, time⟩

variable {used : Std.TreeSet String} {places : List Point}

theorem Searches.unique {k time : Nat} {label label' : Label} (h : Searches used places k time label)
    (h' : Searches used places k time label') : label = label' := by
  have hinside {k : Nat} {place : Point} (hk : places[k]? = some place) : ¬places.length ≤ k :=
    Nat.not_le_of_lt (List.getElem?_eq_some_iff.1 hk).1
  induction h with
  | around behind _ ih =>
      cases h' with
      | around _ rest => exact ih rest
      | taken hk => exact absurd behind (hinside hk)
      | found hk => exact absurd behind (hinside hk)
  | taken hk used_up _ ih =>
      cases h' with
      | around behind => exact absurd behind (hinside hk)
      | taken _ _ rest => exact ih rest
      | found hk' free =>
          cases hk.symm.trans hk'
          exact absurd used_up (Bool.eq_false_iff.1 free)
  | found hk free =>
      cases h' with
      | around behind => exact absurd behind (hinside hk)
      | taken hk' used_up =>
          cases hk.symm.trans hk'
          exact absurd used_up (Bool.eq_false_iff.1 free)
      | found hk' => cases hk.symm.trans hk'; rfl

theorem Searches.spec {k time : Nat} {label : Label} (h : Searches used places k time label) :
    label.text ∉ used ∧ time ≤ label.time := by
  induction h with
  | around _ _ ih => exact ih.imp_right (Nat.le_trans (Nat.le_succ _))
  | taken _ _ _ ih => exact ih
  | found _ free =>
      refine ⟨fun hmem => ?_, Nat.le_refl _⟩
      exact absurd (Std.TreeSet.contains_iff_mem.2 hmem) (Bool.eq_false_iff.1 free)

/-- A search that ends within a number of tries ends. -/
theorem searches_of_seekLabel {tries k time : Nat} {label : Label}
    (h : Checked.seekLabel used (places.map (·.x)) (places.map (·.y)) tries k time = some label) :
    Searches used places k time label := by
  induction tries generalizing k time with
  | zero => cases h
  | succ tries ih =>
      -- One try, at the position that the search has gone to.
      have htry {k time : Nat} (h : ((places.map (·.x))[k]?.bind fun x =>
          (places.map (·.y))[k]?.bind fun y =>
            if used.contains (Label.text ⟨Point.text ⟨x, y⟩, time⟩) then
              Checked.seekLabel used (places.map (·.x)) (places.map (·.y)) tries (k + 1) time
            else some ⟨Point.text ⟨x, y⟩, time⟩) = some label) :
          Searches used places k time label := by
        obtain ⟨x, hx, h⟩ := Option.bind_eq_some_iff.1 h
        obtain ⟨y, hy, h⟩ := Option.bind_eq_some_iff.1 h
        obtain ⟨place, hplace, rfl⟩ := Option.map_eq_some_iff.1 (List.getElem?_map ▸ hx)
        rw [List.getElem?_map, hplace] at hy
        cases hy
        split at h
        case isTrue hused => exact .taken hplace hused (ih h)
        case isFalse hfree =>
          cases h
          exact .found hplace (Bool.eq_false_iff.2 hfree)
      by_cases hk : (places.map (·.x)).length ≤ k
      · rw [Checked.seekLabel, if_pos hk] at h
        exact .around ((List.length_map _).symm.le.trans hk) (htry h)
      · rw [Checked.seekLabel, if_neg hk] at h
        exact htry h

/-- The search for a label of a detector ends, with the label that is written. -/
theorem searches_iff (used : Std.TreeSet String) (c : Circuit) (qubits : List QubitId) (time : Nat)
    (label : Label) : Searches used (labelPlaces c qubits) 0 time label ↔
      label = freshLabel used (labelPlaces c qubits) time := by
  have hne : labelPlaces c qubits ≠ [] := by simp [labelPlaces]
  have hfound : Searches used (labelPlaces c qubits) 0 time (freshLabel used (labelPlaces c qubits) time) :=
    searches_of_seekLabel (Checked.freshLabel_eq hne time)
  refine ⟨fun h => h.unique hfound, ?_⟩
  rintro rfl
  exact hfound

/-- The label on the line of a detector. -/
def Line.label? : Line → Option Label
  | .detector label _ => some label
  | _ => none

namespace Pending

/-- What becomes of used labels and of the next layer's time while labels from `time` on are written. -/
structure Takes (time : Nat) (p q : Pending) (taken : List Label) : Prop where
  before : Before q.time q.labels
  later : p.time ≤ q.time
  mem : ∀ s, s ∈ q.labels ↔ s ∈ p.labels ∨ s ∈ taken.map Label.text
  fresh : ∀ l ∈ taken, l.text ∉ p.labels
  start : ∀ l ∈ taken, time ≤ l.time
  nodup : (taken.map Label.text).Nodup

variable {c : Circuit} {p q r : Pending} {time : Nat} {xs ys : List Label}

theorem Takes.refl (h : Before p.time p.labels) (time : Nat) : Takes time p p [] :=
  ⟨h, Nat.le_refl _, fun s => by simp, by simp, by simp, List.nodup_nil⟩

theorem Takes.trans (hxs : Takes time p q xs) (hys : Takes time q r ys) :
    Takes time p r (xs ++ ys) := by
  refine ⟨hys.before, hxs.later.trans hys.later, fun s => ?_, ?_, ?_, ?_⟩
  · rw [hys.mem, hxs.mem, List.map_append, List.mem_append, or_assoc]
  · refine List.forall_mem_append.2 ⟨hxs.fresh, fun l hl hused => ?_⟩
    exact hys.fresh l hl ((hxs.mem _).2 (.inl hused))
  · exact List.forall_mem_append.2 ⟨hxs.start, hys.start⟩
  · rw [List.map_append]
    refine hxs.nodup.append hys.nodup fun s hx hy => ?_
    obtain ⟨l, hl, rfl⟩ := List.mem_map.1 hy
    exact hys.fresh l hl ((hxs.mem _).2 (.inr hx))

/-- The times of labels are behind. -/
theorem Takes.time_lt (h : Takes time p q xs) {l : Label} (hl : l ∈ xs) : l.time < q.time := by
  obtain ⟨l', heq, hlt⟩ := h.before _ ((h.mem _).2 (.inr (List.mem_map_of_mem hl)))
  rwa [time_eq_of_text heq]

theorem takes_labelDetector (h : Before p.time p.labels) (c : Circuit) (time : Nat) (d : Detector) :
    Takes time p (p.labelDetector c time d).2
      [freshLabel p.labels (labelPlaces c d.qubits) time] := by
  obtain ⟨hfree, hstart⟩ := ((searches_iff p.labels c d.qubits time _).2 rfl).spec
  refine ⟨h.insert _, Nat.le_max_left _ _, fun s => ?_, ?_, ?_, List.nodup_singleton _⟩
  · rw [List.map_singleton, List.mem_singleton, or_comm, eq_comm]
    exact Std.TreeSet.mem_insert.trans (or_congr_left Std.LawfulEqCmp.compare_eq_iff_eq)
  · exact List.forall_mem_singleton.2 hfree
  · exact List.forall_mem_singleton.2 hstart

/-- Detectors of one layer. -/
theorem takes_labelDetectors (h : Before p.time p.labels) (c : Circuit) (time : Nat)
    (ds : List Detector) : Takes time p (p.labelDetectors c time ds).2
      ((p.labelDetectors c time ds).1.filterMap Line.label?) := by
  induction ds generalizing p with
  | nil => exact .refl h time
  | cons d rest ih =>
      have hfirst := takes_labelDetector h c time d
      exact hfirst.trans (ih hfirst.before)

theorem takes_writeDetectors (h : Before p.time p.labels) (c : Circuit) :
    Takes p.time p (p.writeDetectors c).2 ((p.writeDetectors c).1.filterMap Line.label?) := by
  let ready := p.detectors.takeWhile fun d => p.isWritten d.offsets
  let waiting : Pending := { p with detectors := p.detectors.drop ready.length }
  have hready : Takes p.time waiting _ _ := takes_labelDetectors (p := waiting) h c p.time ready
  exact ⟨hready.before, hready.later, hready.mem, hready.fresh, hready.start, hready.nodup⟩

end Pending

/-- The labels on lines, each with its layer: the lines stand behind `k` ticks. -/
def labels (k : Nat) : List Line → List (Nat × Label)
  | [] => []
  | l :: ls => l.label?.toList.map (k, ·) ++ labels (l.next k) ls

theorem labels_append {ls : List Line} (h : .tick ∉ ls) (k : Nat) (rest : List Line) :
    labels k (ls ++ rest) = (ls.filterMap Line.label?).map (k, ·) ++ labels k rest := by
  induction ls with
  | nil => rfl
  | cons l ls ih =>
      obtain ⟨hl, hls⟩ := not_or.1 (mt List.mem_cons.2 h)
      rw [List.cons_append, labels, next_of_ne_tick (Ne.symm hl), ih hls, List.filterMap_cons]
      cases l.label? <;> rfl

/-- Lines without detectors and ticks carry no labels. -/
theorem labels_of_none {ls : List Line} (h : ∀ l ∈ ls, l.label? = none ∧ l ≠ .tick) (k : Nat)
    (rest : List Line) : labels k (ls ++ rest) = labels k rest := by
  rw [labels_append fun hmem => (h _ hmem).2 rfl,
    List.filterMap_eq_nil_iff.2 fun l hl => (h l hl).1]
  rfl

theorem labels_ticks (k : Nat) (ls : List Line) (n : Nat) :
    labels k (ls ++ List.replicate n .tick) = labels k ls := by
  induction ls generalizing k with
  | nil =>
      induction n generalizing k with
      | zero => rfl
      | succ n ih => exact ih (k + 1)
  | cons l ls ih => rw [List.cons_append, labels, ih, labels]

/-- Labels that differ, and that are in the order of their layers. -/
def Chronological (a b : Nat × Label) : Prop :=
  a.2.text ≠ b.2.text ∧ (a.1 < b.1 → a.2.time < b.2.time) ∧ (b.1 < a.1 → b.2.time < a.2.time)

instance : Std.Symm Chronological where
  symm _ _ h := ⟨h.1.symm, h.2.2, h.2.1⟩

/-- Labels of one layer and of the layer behind it. -/
theorem Chronological.of_lt {a b : Nat × Label} (htext : a.2.text ≠ b.2.text) (hlayer : a.1 < b.1)
    (htime : a.2.time < b.2.time) : Chronological a b :=
  ⟨htext, fun _ => htime, fun h => absurd h (Nat.lt_asymm hlayer)⟩

theorem labels_bodyLines_cons (c : Circuit) (d : Detail) (p : Pending) (l : Layer)
    (rest : List Layer) (k : Nat) : labels k (bodyLines c d p (l :: rest)) =
      (((p.advance l).writeDetectors c).1.filterMap Line.label?).map (k, ·) ++
        labels (k + 1) (bodyLines c d ((p.advance l).writeDetectors c).2.writeObservables.2 rest) := by
  have hlayer : ∀ line ∈ layerLines d l, line.label? = none ∧ line ≠ .tick := by
    intro line hline
    have hof := ofLayer_layerLines hline
    cases line with
    | detector => exact hof.elim
    | tick => exact hof.elim
    | _ => exact ⟨rfl, Line.noConfusion⟩
  have hobservables : ∀ line ∈ ((p.advance l).writeDetectors c).2.writeObservables.1,
      line.label? = none ∧ line ≠ .tick := by
    intro line hline
    obtain ⟨entry, -, rfl⟩ := List.mem_map.1 hline
    exact ⟨rfl, Line.noConfusion⟩
  have hticks : Line.tick ∉ ((p.advance l).writeDetectors c).1 := fun hmem =>
    (silent_writeDetectors c _ _ hmem).2 rfl
  rw [bodyLines_cons, labels_of_none hlayer, labels_append hticks, labels_of_none hobservables]
  rfl

/-- Layer by layer, labels are new and later than those before. -/
theorem labels_bodyLines {c : Circuit} {d : Detail} {layers : List Layer} {p : Pending}
    (h : Before p.time p.labels) (k : Nat) :
    (∀ e ∈ labels k (bodyLines c d p layers),
        k ≤ e.1 ∧ e.2.text ∉ p.labels ∧ p.time ≤ e.2.time) ∧
      (labels k (bodyLines c d p layers)).Pairwise Chronological := by
  induction layers generalizing p k with
  | nil => exact ⟨fun e he => absurd he List.not_mem_nil, .nil⟩
  | cons l rest ih =>
      have htakes := Pending.takes_writeDetectors (p := p.advance l) h c
      let behind := ((p.advance l).writeDetectors c).2.writeObservables.2
      obtain ⟨hnew, hpairwise⟩ := ih (p := behind) htakes.before (k + 1)
      rw [labels_bodyLines_cons]
      constructor
      · intro e he
        rcases List.mem_append.1 he with he | he
        · obtain ⟨label, hlabel, rfl⟩ := List.mem_map.1 he
          exact ⟨Nat.le_refl _, htakes.fresh label hlabel, htakes.start label hlabel⟩
        · obtain ⟨hk, hunused, htime⟩ := hnew e he
          exact ⟨Nat.le_of_succ_le hk, fun hmem => hunused ((htakes.mem _).2 (.inl hmem)),
            htakes.later.trans htime⟩
      · refine List.pairwise_append.2 ⟨?_, hpairwise, fun a ha b hb => ?_⟩
        · refine List.pairwise_map.2 ((List.pairwise_map.1 htakes.nodup).imp fun htext => ?_)
          exact ⟨htext, fun hlt => absurd hlt (Nat.lt_irrefl _), fun hlt => absurd hlt (Nat.lt_irrefl _)⟩
        · obtain ⟨label, hlabel, rfl⟩ := List.mem_map.1 ha
          obtain ⟨hk, hunused, htime⟩ := hnew b hb
          refine .of_lt (fun htext => hunused ?_) hk ((htakes.time_lt hlabel).trans_le htime)
          exact (htakes.mem _).2 (.inr (htext ▸ List.mem_map_of_mem hlabel))

/-- All labels of a circuit, each with its layer. -/
theorem pairwise_labels (c : Circuit) (d : Detail) : (labels 0 (lines c d)).Pairwise Chronological := by
  have hstart : Before (Pending.ofCircuit c).time (Pending.ofCircuit c).labels := fun s hs =>
    absurd hs Std.TreeSet.not_mem_emptyc
  have hheader : ∀ l ∈ headerLines c d, l.label? = none ∧ l ≠ .tick := by
    intro l hl
    obtain ⟨-, sheet, -, rfl⟩ | ⟨q, -, rfl⟩ := headerLines_cases hl
    · exact ⟨rfl, Line.noConfusion⟩
    · exact ⟨rfl, Line.noConfusion⟩
  obtain ⟨n, hn⟩ := exists_ticks c d
  rw [← labels_ticks 0 (lines c d) n, ← hn, labels_of_none hheader]
  exact (labels_bodyLines hstart 0).2

/-- The search for the label of a detector ends, from every place and time and whatever is used up. The
labels of a circuit's detectors differ, and those that are written behind a later layer have later
times. -/
theorem labels_distinct_and_later (c : Circuit) (d : Detail) :
    (∀ (used : Std.TreeSet String) (qubits : List QubitId) (time : Nat) (label : Label),
        Searches used (labelPlaces c qubits) 0 time label ↔
          label = freshLabel used (labelPlaces c qubits) time) ∧
      ((labels 0 (lines c d)).map (·.2.text)).Nodup ∧
      ∀ a ∈ labels 0 (lines c d), ∀ b ∈ labels 0 (lines c d), a.1 < b.1 → a.2.time < b.2.time := by
  refine ⟨fun used qubits time label => searches_iff used c qubits time label, ?_, ?_⟩
  · exact List.pairwise_map.2 ((pairwise_labels c d).imp fun h => h.1)
  · intro a ha b hb hlayer
    have hne : a ≠ b := fun heq => absurd (heq ▸ hlayer) (Nat.lt_irrefl _)
    exact ((pairwise_labels c d).forall ha hb hne).2.1 hlayer

end Emission

end StimOverlay
