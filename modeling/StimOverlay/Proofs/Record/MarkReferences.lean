import StimOverlay.Proofs.Numeric.NearestRounding
import StimOverlay.Proofs.Record.GroupedLists
import StimOverlay.Proofs.Record.MeasurementNumbers

/-! References of marks. Every detector and every observable that a run accepted comes back with the
measurements it named: the marks on the layers lead from a number in the record to a site and from there
to the number again. -/

namespace StimOverlay

open Build Numeric

namespace Circuit

/-- The elements of a list layer by layer, `n` layers of them; within a layer the order is kept. -/
def byLayer (n : Nat) (layer : α → Nat) (xs : List α) : List α :=
  (List.range n).flatMap fun k => xs.filter (layer · == k)

theorem byLayer_perm {n : Nat} (layer : α → Nat) {xs : List α} (h : ∀ x ∈ xs, layer x < n) :
    (byLayer n layer xs).Perm xs :=
  flatMap_filter_perm layer List.nodup_range fun x hx => List.mem_range.2 (h x hx)

theorem filter_byLayer (n : Nat) (layer : α → Nat) (p : α → Bool) (xs : List α) :
    (byLayer n layer xs).filter p = byLayer n layer (xs.filter p) := by
  rw [byLayer, byLayer, List.filter_flatMap]
  refine List.flatMap_congr fun k _ => ?_
  rw [List.filter_filter, List.filter_filter]
  exact List.filter_congr fun x _ => Bool.and_comm _ _

theorem map_byLayer (n : Nat) (layer : α → Nat) (layer' : β → Nat) (f : α → β)
    (h : ∀ x, layer' (f x) = layer x) (xs : List α) :
    (byLayer n layer xs).map f = byLayer n layer' (xs.map f) := by
  rw [byLayer, byLayer, List.map_flatMap]
  refine List.flatMap_congr fun k _ => ?_
  rw [List.filter_map]
  congr 2
  funext x
  simp [h]

/-- Layers that hold exactly the given marks. -/
structure Marked (layers : List Layer) (marks : List (Nat × Operation)) : Prop where
  markers : ∀ k l, layers[k]? = some l →
    l.markers.toList = (marks.filter (·.1 == k)).map (·.2)
  inside : ∀ e ∈ marks, e.1 < layers.length

/-- The reference that a mark makes, with the layer of the mark. -/
def referenceOf (order : RecordOrder) (layers : List Layer) (e : Nat × Operation) :
    Nat × Reference :=
  (e.1, ⟨(e.2.args.head?.map (Binary.nearestNat maxSlot)).getD 0,
    e.2.targets.head?.bind fun q => measurementAt order layers ⟨e.1, q⟩⟩)

/-- The references of a circuit are those of its marks, layer by layer. -/
theorem references_eq {layers : List Layer} {marks : List (Nat × Operation)}
    (h : Marked layers marks) (order : RecordOrder) (name : String) :
    references name (measuredFrom order 0 layers) =
      (byLayer layers.length (·.1)
        ((marks.filter (·.2.gate.name == name)).map (referenceOf order layers))).map (·.2) := by
  have hfst := map_fst_measuredFrom order 0 layers
  rw [byLayer, List.map_flatMap, references, List.flatMap_def, List.flatMap_def]
  congr 1
  apply List.ext_getElem?
  intro k
  rw [List.getElem?_map, List.getElem?_map]
  cases hentry : (measuredFrom order 0 layers)[k]? with
  | none =>
      have hk : layers.length ≤ k := by
        rw [← hfst, List.length_map]
        exact List.getElem?_eq_none_iff.1 hentry
      rw [List.getElem?_eq_none (by rwa [List.length_range])]
      rfl
  | some entry =>
      have hl : layers[k]? = some entry.1 := by
        rw [← hfst, List.getElem?_map, hentry]
        rfl
      have hk : k < layers.length := (List.getElem?_eq_some_iff.1 hl).1
      rw [List.getElem?_range hk, Option.map_some, Option.map_some, h.markers k entry.1 hl,
        List.filter_map, List.map_map, List.filter_map, List.map_map, List.filter_filter,
        List.filter_filter]
      congr 1
      have hsame : (marks.filter fun e => e.2.gate.name == name && e.1 == k) =
          marks.filter fun e => e.1 == k && e.2.gate.name == name :=
        List.filter_congr fun e _ => Bool.and_comm _ _
      refine (List.map_congr_left fun e he => ?_).trans (congrArg _ hsame)
      have hek : e.1 = k := by
        have hcond := (List.mem_filter.1 he).2
        simp only [Function.comp, Bool.and_eq_true, beq_iff_eq] at hcond
        exact hcond.2
      simp only [Function.comp, referenceOf, measurementAt, hek, hentry, Option.bind_some]

end Circuit

namespace Build

/-- The numbers in the record that a move names. -/
def Move.numbers : Move → List Nat
  | .detector _ _ numbers => numbers
  | .observable _ _ _ numbers => numbers
  | _ => []

/-- Every move names only measurements that are recorded when it is made, `n` of them at the start. -/
inductive RangedFrom : Nat → List Move → Prop where
  | nil (n : Nat) : RangedFrom n []
  | cons {n : Nat} {m : Move} {rest : List Move} (head : ∀ k ∈ m.numbers, k < n)
      (tail : RangedFrom (n + [m].countP Move.measures) rest) : RangedFrom n (m :: rest)

theorem rangedFrom_append {n : Nat} {xs ys : List Move} :
    RangedFrom n (xs ++ ys) ↔ RangedFrom n xs ∧ RangedFrom (n + xs.countP Move.measures) ys := by
  induction xs generalizing n with
  | nil => exact ⟨fun h => ⟨.nil n, h⟩, fun h => h.2⟩
  | cons m rest ih =>
      have hcount : n + (m :: rest).countP Move.measures =
          n + [m].countP Move.measures + rest.countP Move.measures := by
        rw [Nat.add_assoc, ← List.countP_append]
        rfl
      rw [List.cons_append, hcount]
      constructor
      · rintro (_ | ⟨head, tail⟩)
        exact ⟨.cons head (ih.1 tail).1, (ih.1 tail).2⟩
      · rintro ⟨_ | ⟨head, tail⟩, hys⟩
        exact .cons head (ih.2 ⟨tail, hys⟩)

theorem rangedFrom_of_numbers_eq_nil {n : Nat} {ms : List Move} (h : ∀ m ∈ ms, m.numbers = []) :
    RangedFrom n ms := by
  induction ms generalizing n with
  | nil => exact .nil n
  | cons m rest ih =>
      refine .cons (fun k hk => ?_) (ih fun m' hm' => h m' (List.mem_cons_of_mem _ hm'))
      rw [h m List.mem_cons_self] at hk
      exact absurd hk List.not_mem_nil

theorem rangedFrom_instructionMoves (ctx : Context) (n line : Nat) (i : Instruction) :
    RangedFrom n (instructionMoves ctx n line i) := by
  unfold instructionMoves
  split
  · exact .cons (fun k hk => absurd hk List.not_mem_nil) (.nil _)
  split
  · exact .nil _
  split
  · unfold markerMoves
    split
    · exact .nil _
    · rename_i numbers hnumbers
      split
      · exact .cons (recordNumbers?_lt hnumbers) (.nil _)
      · cases observableIndex? i with
        | none => exact .nil _
        | some v => exact .cons (recordNumbers?_lt hnumbers) (.nil _)
  split
  · refine rangedFrom_of_numbers_eq_nil fun m hm => ?_
    obtain ⟨op, rfl, -⟩ := productMoves_cases ctx ‹_› hm
    rfl
  · refine rangedFrom_of_numbers_eq_nil fun m hm => ?_
    obtain ⟨op, rfl, -⟩ | ⟨err, q, -, -, rfl⟩ := namedMoves_cases hm
    · rfl
    · rfl

theorem rangedFrom_movesFrom (ctx : Context) (n : Nat) (acts : List Act) :
    RangedFrom n (movesFrom ctx n acts) := by
  induction acts generalizing n with
  | nil => exact .nil _
  | cons a rest ih =>
      rw [movesFrom, rangedFrom_append]
      refine ⟨?_, ih _⟩
      cases hi : a.instruction? with
      | none =>
          rw [moves_of_none hi]
          exact .nil _
      | some entry =>
          rw [moves_of_instruction hi]
          exact rangedFrom_instructionMoves ctx n entry.1 entry.2

theorem ranged_moves (ctx : Context) (acts : List Act) : RangedFrom 0 (moves ctx acts) :=
  rangedFrom_movesFrom ctx 0 acts

namespace Tape

theorem record_move (ctx : Context) (t : Tape) (m : Move) {k : Nat} (hk : k < t.record.size) :
    (t.move ctx m).record[k]? = t.record[k]? := by
  cases m with
  | place op =>
      unfold move place
      dsimp only
      split
      · rfl
      · split
        · rw [Array.getElem?_push_lt hk, Array.getElem?_eq_getElem hk]
        · rfl
  | _ => rfl

/-- The sites of numbered measurements. -/
def sitesOf (t : Tape) (numbers : List Nat) : List Site := numbers.filterMap (t.record[·]?)

theorem sitesOf_move (ctx : Context) (t : Tape) (m : Move) {numbers : List Nat}
    (h : ∀ k ∈ numbers, k < t.record.size) : (t.move ctx m).sitesOf numbers = t.sitesOf numbers :=
  List.filterMap_congr fun k hk => record_move ctx t m (h k hk)

/-- What a mark for a measurement refers to. -/
def referenceTo (order : RecordOrder) (layers : List Layer) (index : Binary32) (site : Site) :
    Nat × Circuit.Reference :=
  (site.layer, ⟨index.nearestNat maxSlot, Circuit.measurementAt order layers site⟩)

theorem filter_marks (t : Tape) {g : Gate} (tag : String) (index : Binary32) (line : Nat)
    (numbers : List Nat) (name : String) :
    (t.marks (some g) tag index line numbers).filter (·.2.gate.name == name) =
      if g.name = name then t.marks (some g) tag index line numbers else [] := by
  by_cases hname : g.name = name
  · rw [if_pos hname, List.filter_eq_self]
    intro e he
    obtain ⟨g', hg', k, -, site, -, rfl⟩ := mem_marks.1 he
    cases hg'
    simpa [Operation.onQubit] using hname
  · rw [if_neg hname, List.filter_eq_nil_iff]
    intro e he
    obtain ⟨g', hg', k, -, site, -, rfl⟩ := mem_marks.1 he
    cases hg'
    simpa [Operation.onQubit] using hname

theorem map_referenceOf_marks (order : RecordOrder) (layers : List Layer) (t : Tape) (g : Gate)
    (tag : String) (index : Binary32) (line : Nat) (numbers : List Nat) :
    (t.marks (some g) tag index line numbers).map (Circuit.referenceOf order layers) =
      (t.sitesOf numbers).map (referenceTo order layers index) := by
  simp only [marks, Option.toList_some, List.flatMap_cons, List.flatMap_nil, List.append_nil,
    List.map_map]
  rfl

theorem gate?_detector :
    Context.standard.catalog.gate? detectorName = some ⟨detectorName, 1, false, .marker⟩ := by
  decide

theorem gate?_observable :
    Context.standard.catalog.gate? observableName = some ⟨observableName, 1, false, .marker⟩ := by
  decide

/-- The references that a move makes by marks of the given name. -/
def referencesOf (order : RecordOrder) (layers : List Layer) (name : String) (t : Tape) :
    Move → List (Nat × Circuit.Reference)
  | .detector _ _ numbers =>
      if name = detectorName then
        (t.sitesOf numbers).map (referenceTo order layers (.ofNat .binary32 t.detectors))
      else []
  | .observable index _ _ numbers =>
      if name = observableName then
        (t.sitesOf numbers).map (referenceTo order layers (index.convert .binary32))
      else []
  | _ => []

theorem map_referenceOf_stamps (order : RecordOrder) (layers : List Layer) {name : String}
    (hname : name = detectorName ∨ name = observableName) (t : Tape) {m : Move} (hm : m.Legal) :
    ((t.stamps .standard m).filter (·.2.gate.name == name)).map
        (Circuit.referenceOf order layers) = t.referencesOf order layers name m := by
  have hmarks {g : Gate} {tag : String} {index : Binary32} {line : Nat} {numbers : List Nat} :
      ((t.marks (some g) tag index line numbers).filter (·.2.gate.name == name)).map
          (Circuit.referenceOf order layers) =
        if name = g.name then (t.sitesOf numbers).map (referenceTo order layers index) else [] := by
    rw [filter_marks]
    by_cases h : g.name = name
    · rw [if_pos h, if_pos h.symm, map_referenceOf_marks]
    · rw [if_neg h, if_neg (Ne.symm h)]
      rfl
  cases m with
  | tick => rfl
  | place op =>
      obtain ⟨-, hdetector, hobservable⟩ := hm
      have hne : op.gate.name ≠ name := by
        rcases hname with rfl | rfl
        · exact hdetector
        · exact hobservable
      simp only [stamps, referencesOf]
      split
      · simp [hne]
      · rfl
  | mark op =>
      have hne : op.gate.name ≠ name := by
        rw [hm.2]
        rcases hname with rfl | rfl
        · decide
        · decide
      simp [stamps, referencesOf, hne]
  | detector tag line numbers =>
      simp only [stamps, referencesOf, gate?_detector, hmarks]
  | observable index tag line numbers =>
      simp only [stamps, referencesOf, gate?_observable, hmarks]

theorem numbers_lt {n : Nat} {ms : List Move} (h : RangedFrom n ms) {m : Move} (hm : m ∈ ms) :
    ∀ k ∈ m.numbers, k < n + ms.countP Move.measures := by
  induction ms generalizing n with
  | nil => exact absurd hm List.not_mem_nil
  | cons m' rest ih =>
      intro k hk
      have hcount : (m' :: rest).countP Move.measures =
          [m'].countP Move.measures + rest.countP Move.measures := by
        rw [← List.countP_append]
        rfl
      obtain _ | ⟨head, tail⟩ := h
      rcases List.mem_cons.1 hm with rfl | hm
      · have := head k hk
        omega
      · have := ih tail hm k hk
        omega

theorem after_concat (ctx : Context) (ms : List Move) (m : Move) :
    Tape.after ctx (ms ++ [m]) = (Tape.after ctx ms).move ctx m := by
  rw [Tape.after, List.foldl_append]
  rfl

/-- The last move leaves the sites as they are that the moves of a run name, its own numbers included. -/
theorem sitesOf_after_concat {ms : List Move} {last : Move} (hms : ∀ m ∈ ms, m.Legal)
    (h : RangedFrom 0 (ms ++ [last])) {m : Move} (hm : m ∈ ms ++ [last]) :
    (Tape.after .standard (ms ++ [last])).sitesOf m.numbers =
      (Tape.after .standard ms).sitesOf m.numbers := by
  have hgrounded : ∀ m ∈ ms, m.Grounded := by
    intro m hm
    cases m with
    | place op => exact (hms _ hm).1.targets_ne_nil
    | _ => trivial
  obtain ⟨hbefore, hlast⟩ := rangedFrom_append.1 h
  rw [after_concat]
  refine sitesOf_move .standard _ last fun k hk => ?_
  rw [Tape.after, record_size_foldl .standard hgrounded]
  rcases List.mem_append.1 hm with hm | hm
  · exact numbers_lt hbefore hm k hk
  · obtain _ | ⟨head, -⟩ := hlast
    rw [List.mem_singleton.1 hm] at hk
    exact head k hk

/-- The references that the selected moves of a run make by marks of the given name. A selected move has its
numbers and its index by what it is and by how many have been selected before it. -/
theorem references_selected (order : RecordOrder) (layers : List Layer) {name : String}
    (hname : name = detectorName ∨ name = observableName) (select : Move → Option α)
    (numbers : α → List Nat) (index : α → Nat → Binary32)
    (hnumbers : ∀ m a, select m = some a → m.numbers = numbers a)
    (hlast : ∀ ms m, (∀ m ∈ ms, m.Legal) →
      (Tape.after .standard ms).referencesOf order layers name m = (select m).toList.flatMap fun a =>
        ((Tape.after .standard ms).sitesOf (numbers a)).map
          (referenceTo order layers (index a (ms.filterMap select).length)))
    {ms : List Move} (hms : ∀ m ∈ ms, m.Legal) (h : RangedFrom 0 ms) :
    ((stampsOf .standard ms).filter (·.2.gate.name == name)).map
        (Circuit.referenceOf order layers) =
      (ms.filterMap select).zipIdx.flatMap fun e =>
        ((Tape.after .standard ms).sitesOf (numbers e.1)).map
          (referenceTo order layers (index e.1 e.2)) := by
  induction ms using List.reverseRecOn with
  | nil => rfl
  | append_singleton ms m ih =>
      have hbefore : ∀ m ∈ ms, m.Legal := fun m hm => hms m (List.mem_append_left _ hm)
      have hsites : ∀ m' ∈ ms ++ [m], ∀ a, select m' = some a →
          (Tape.after .standard (ms ++ [m])).sitesOf (numbers a) =
            (Tape.after .standard ms).sitesOf (numbers a) := fun m' hm' a ha => by
        rw [← hnumbers m' a ha, sitesOf_after_concat hbefore h hm']
      have hearlier : ((ms.filterMap select).zipIdx.flatMap fun e =>
          ((Tape.after .standard (ms ++ [m])).sitesOf (numbers e.1)).map
            (referenceTo order layers (index e.1 e.2))) =
          (ms.filterMap select).zipIdx.flatMap fun e =>
            ((Tape.after .standard ms).sitesOf (numbers e.1)).map
              (referenceTo order layers (index e.1 e.2)) := by
        refine List.flatMap_congr fun e he => ?_
        obtain ⟨m', hm', ha⟩ := List.mem_filterMap.1 (List.fst_mem_of_mem_zipIdx he)
        rw [hsites m' (List.mem_append_left _ hm') e.1 ha]
      rw [stampsOf_concat, List.filter_append, List.map_append, ih hbefore (rangedFrom_append.1 h).1,
        map_referenceOf_stamps order layers hname _ (hms m (by simp)), List.filterMap_append,
        List.zipIdx_append, List.flatMap_append, hearlier, hlast ms m hbefore]
      congr 1
      cases ha : select m with
      | none => simp [ha]
      | some a => simp [ha, hsites m (by simp) a ha]

/-- The references that the detectors of a run make, detector by detector. -/
theorem references_detectors (order : RecordOrder) (layers : List Layer) {ms : List Move}
    (hms : ∀ m ∈ ms, m.Legal) (h : RangedFrom 0 ms) :
    ((stampsOf .standard ms).filter (·.2.gate.name == detectorName)).map
        (Circuit.referenceOf order layers) =
      (ms.filterMap Move.detector?).zipIdx.flatMap fun e =>
        ((Tape.after .standard ms).sitesOf e.1).map
          (referenceTo order layers (.ofNat .binary32 e.2)) := by
  refine references_selected order layers (.inl rfl) Move.detector? id (fun _ => .ofNat .binary32)
    (fun m numbers hm => ?_) (fun ms m hms => ?_) hms h
  · cases m with
    | detector tag line numbers => exact Option.some_inj.1 hm
    | _ => cases hm
  · cases m with
    | detector tag line numbers =>
        simp [referencesOf, Move.detector?,
          (recorded_after ms fun op hop => (hms _ hop).1).detectors]
    | observable index tag line numbers =>
        rw [referencesOf, if_neg (by decide)]
        rfl
    | _ => rfl

/-- The references that the observables of a run make, instruction by instruction. -/
theorem references_observables (order : RecordOrder) (layers : List Layer) {ms : List Move}
    (hms : ∀ m ∈ ms, m.Legal) (h : RangedFrom 0 ms) :
    ((stampsOf .standard ms).filter (·.2.gate.name == observableName)).map
        (Circuit.referenceOf order layers) =
      (ms.filterMap Move.observable?).flatMap fun e =>
        ((Tape.after .standard ms).sitesOf e.2).map
          (referenceTo order layers (e.1.convert .binary32)) := by
  rw [← List.zipIdx_map_fst 0 (ms.filterMap Move.observable?), List.flatMap_map]
  refine references_selected order layers (.inr rfl) Move.observable? (·.2)
    (fun e _ => e.1.convert .binary32) (fun m e hm => ?_) (fun ms m _ => ?_) hms h
  · cases m with
    | observable index tag line numbers => exact congrArg Prod.snd (Option.some_inj.1 hm)
    | _ => cases hm
  · cases m with
    | detector tag line numbers =>
        rw [referencesOf, if_neg (by decide)]
        rfl
    | observable index tag line numbers => simp [referencesOf, Move.observable?]
    | _ => rfl

end Tape

end Build

end StimOverlay
