import Mathlib.Data.Prod.Lex
import StimOverlay.Proofs.Circuit.PackedCoordinates
import StimOverlay.Proofs.Directive.WrittenDirectives
import StimOverlay.Proofs.Numeric.BoundedSums
import StimOverlay.Proofs.Record.OutputRecord

/-! New numbers. Writing numbers the qubits that it mentions by place, each by a number of its own that text
can name, so that what is written for an operation acts on as many qubits as the operation does. -/

namespace StimOverlay

open Build Numeric

namespace Emission

namespace Numbering

variable {l : List QubitId}

theorem number_ofList (hnodup : l.Nodup) {i : Nat} {q : QubitId} (h : l[i]? = some q) :
    (ofList l).number q = i := by
  have hkeys : l.zipIdx.Pairwise fun a b => ¬compare a.1 b.1 = .eq := by
    have hfst : (l.zipIdx.map Prod.fst).Nodup := by rwa [List.zipIdx_map_fst]
    refine (List.pairwise_map.1 hfst).imp fun hne heq => hne ?_
    exact Nat.compare_eq_eq.1 heq
  have hmem : (q, i) ∈ l.zipIdx := List.mem_zipIdx_iff_getElem?.2 h
  have hfound : (ofList l).numbers[q]? = some i :=
    Std.TreeMap.getElem?_ofList_of_mem (Std.ReflCmp.compare_self) hkeys hmem
  rw [number, Std.TreeMap.getD_eq_getD_getElem?, hfound]
  rfl

theorem number_lt (hnodup : l.Nodup) {q : QubitId} (hq : q ∈ l) :
    (ofList l).number q < l.length := by
  obtain ⟨i, hi⟩ := List.mem_iff_getElem?.1 hq
  rw [number_ofList hnodup hi]
  exact (List.getElem?_eq_some_iff.1 hi).1

theorem number_injective (hnodup : l.Nodup) {q r : QubitId} (hq : q ∈ l) (hr : r ∈ l)
    (h : (ofList l).number q = (ofList l).number r) : q = r := by
  obtain ⟨i, hi⟩ := List.mem_iff_getElem?.1 hq
  obtain ⟨j, hj⟩ := List.mem_iff_getElem?.1 hr
  rw [number_ofList hnodup hi, number_ofList hnodup hj] at h
  rw [h, hj] at hi
  exact Option.some.inj hi.symm

/-- The numbers follow the order in which the list ascends. -/
theorem number_lt_iff {κ : Type} [LinearOrder κ] {key : QubitId → κ}
    (h : l.Pairwise fun a b => key a < key b) {q r : QubitId} (hq : q ∈ l) (hr : r ∈ l) :
    (ofList l).number q < (ofList l).number r ↔ key q < key r := by
  have hnodup : l.Nodup := h.imp fun {a b} hlt heq => absurd hlt (by rw [heq]; exact lt_irrefl _)
  have hforth : ∀ {q r : QubitId}, q ∈ l → r ∈ l →
      (ofList l).number q < (ofList l).number r → key q < key r := by
    intro q r hq hr hlt
    obtain ⟨i, hi⟩ := List.mem_iff_getElem?.1 hq
    obtain ⟨j, hj⟩ := List.mem_iff_getElem?.1 hr
    rw [number_ofList hnodup hi, number_ofList hnodup hj] at hlt
    obtain ⟨hilt, rfl⟩ := List.getElem?_eq_some_iff.1 hi
    obtain ⟨hjlt, rfl⟩ := List.getElem?_eq_some_iff.1 hj
    exact List.pairwise_iff_getElem.1 h i j hilt hjlt hlt
  refine ⟨hforth hq hr, fun hlt => ?_⟩
  by_contra hle
  rcases Nat.lt_or_eq_of_le (Nat.le_of_not_lt hle) with hback | hsame
  · exact absurd (hforth hr hq hback) (lt_asymm hlt)
  · rw [number_injective hnodup hr hq hsame] at hlt
    exact lt_irrefl _ hlt

end Numbering

variable {c : Circuit}

/-- Where a qubit comes in the order of places. -/
def rank (c : Circuit) (q : QubitId) : Rat ×ₗ Rat ×ₗ QubitId :=
  toLex ((c.coordsOf q).x.toRat, toLex ((c.coordsOf q).y.toRat, q))

theorem compareCoordinates_of_finite {x y : Binary64} (hx : x.isFinite) (hy : y.isFinite) :
    compareCoordinates x y =
      if x.toRat < y.toRat then .lt else if x.toRat = y.toRat then .eq else .gt := by
  cases x with
  | nan s => cases hx
  | infinite s => cases hx
  | finite s m e h =>
      cases y with
      | nan t => cases hy
      | infinite t => cases hy
      | finite t k d h' => rfl

theorem compareQubits_isLE {a b : QubitId} 
    (ha : (c.coordsOf a).x.isFinite ∧ (c.coordsOf a).y.isFinite)
    (hb : (c.coordsOf b).x.isFinite ∧ (c.coordsOf b).y.isFinite) :
    (compareQubits c a b).isLE = decide (rank c a ≤ rank c b) := by
  rw [compareQubits, compareCoordinates_of_finite ha.1 hb.1,
    compareCoordinates_of_finite ha.2 hb.2, rank, rank]
  simp only [Prod.Lex.toLex_le_toLex]
  rcases lt_trichotomy (c.coordsOf a).x.toRat (c.coordsOf b).x.toRat with hx | hx | hx
  · simp [hx]
  · rcases lt_trichotomy (c.coordsOf a).y.toRat (c.coordsOf b).y.toRat with hy | hy | hy
    · simp [hx, hy]
    · have hcompare : (compare a b).isLE = decide (a ≤ b) := by
        rw [Bool.eq_iff_iff, decide_eq_true_eq]
        exact Nat.isLE_compare
      simp [hx, hy, hcompare]
    · simp [hx, hy.ne', not_lt_of_gt hy]
  · simp [hx.ne', not_lt_of_gt hx]

variable {d : Detail}

theorem mem_mentioned_of_active {q : QubitId} (h : q ∈ c.activeQubits) (d : Detail) :
    q ∈ mentioned c d := by
  cases d with
  | plain => exact h
  | annotated =>
      rw [mentioned, Std.TreeSet.mem_toList, Std.TreeSet.mem_ofList, List.contains_iff_mem]
      exact List.mem_append_left _ h

theorem mem_mentioned_annotated {q : QubitId} :
    q ∈ mentioned c .annotated ↔ q ∈ c.activeQubits ∨ q ∈ c.overlayQubits := by
  rw [mentioned, Std.TreeSet.mem_toList, Std.TreeSet.mem_ofList, List.contains_iff_mem,
    List.mem_append]

theorem nodup_mentioned (c : Circuit) (d : Detail) : (mentioned c d).Nodup := by
  have hnodup (l : List QubitId) : (Std.TreeSet.ofList l).toList.Nodup := by
    refine Std.TreeSet.ordered_toList.imp fun {a b} hlt heq => ?_
    exact absurd heq (Nat.ne_of_lt (Nat.compare_eq_lt.1 hlt))
  cases d <;> exact hnodup _

theorem numbered_perm (c : Circuit) (d : Detail) : (numbered c d).Perm (mentioned c d) :=
  List.mergeSort_perm _ _

theorem nodup_numbered (c : Circuit) (d : Detail) : (numbered c d).Nodup :=
  (numbered_perm c d).nodup_iff.2 (nodup_mentioned c d)

/-- A circuit with finite coordinates, where it is written. -/
def Finite (c : Circuit) (d : Detail) : Prop :=
  ∀ q ∈ mentioned c d, (c.coordsOf q).x.isFinite ∧ (c.coordsOf q).y.isFinite

theorem pairwise_numbered (h : Finite c d) :
    (numbered c d).Pairwise fun a b => rank c a < rank c b := by
  have hsorted : numbered c d =
      (mentioned c d).mergeSort fun a b => decide (rank c a ≤ rank c b) := by
    have hmap := List.map_mergeSort (f := id) (r := fun a b => (compareQubits c a b).isLE)
      (s := fun a b => decide (rank c a ≤ rank c b)) (l := mentioned c d)
      fun a ha b hb => compareQubits_isLE (h a ha) (h b hb)
    rwa [List.map_id, List.map_id] at hmap
  have hle : (numbered c d).Pairwise fun a b => rank c a ≤ rank c b := by
    rw [hsorted]
    refine (List.pairwise_mergeSort (fun a b d hab hbd => ?_) (fun a b => ?_) (mentioned c d)).imp
      fun hab => of_decide_eq_true hab
    · rw [decide_eq_true_eq] at hab hbd ⊢
      exact hab.trans hbd
    · rw [Bool.or_eq_true, decide_eq_true_eq, decide_eq_true_eq]
      exact le_total _ _
  refine (List.pairwise_and_iff.2 ⟨hle, nodup_numbered c d⟩).imp fun {a b} hab => ?_
  refine lt_of_le_of_ne hab.1 fun heq => hab.2 ?_
  exact congrArg (fun key => (ofLex (ofLex key).2).2) heq

/-- The numbers that a circuit is written with in the given detail. -/
def numberingOf (c : Circuit) (d : Detail) : Numbering := .ofList (numbered c d)

theorem number_injective {q r : QubitId} (hq : q ∈ mentioned c d) (hr : r ∈ mentioned c d)
    (h : (numberingOf c d).number q = (numberingOf c d).number r) : q = r :=
  Numbering.number_injective (nodup_numbered c d) ((numbered_perm c d).mem_iff.2 hq)
    ((numbered_perm c d).mem_iff.2 hr) h

/-- The qubits that are written are numbered without gaps. -/
theorem number_lt_length {q : QubitId} (hq : q ∈ mentioned c d) :
    (numberingOf c d).number q < (mentioned c d).length := by
  rw [← (numbered_perm c d).length_eq]
  exact Numbering.number_lt (nodup_numbered c d) ((numbered_perm c d).mem_iff.2 hq)

/-- They are numbered by their places. -/
theorem number_lt_number_iff (h : Finite c d) {q r : QubitId} (hq : q ∈ mentioned c d)
    (hr : r ∈ mentioned c d) :
    (numberingOf c d).number q < (numberingOf c d).number r ↔ rank c q < rank c r :=
  Numbering.number_lt_iff (pairwise_numbered h) ((numbered_perm c d).mem_iff.2 hq)
    ((numbered_perm c d).mem_iff.2 hr)

/-- An operation or a marker that is written as such, not as part of a detector or an observable. -/
def IsWritten (op : Operation) : Prop :=
  op.gate.name ≠ detectorName ∧ op.gate.name ≠ observableName

instance (op : Operation) : Decidable (IsWritten op) :=
  inferInstanceAs (Decidable (_ ∧ _))

/-- A circuit of which everything can be written: without tags and arguments, and with coordinates
that middles can be taken of. -/
structure Expressible (c : Circuit) : Prop where
  bare : ∀ op ∈ c.operationsAndMarkers, IsWritten op → op.tag = "" ∧ op.args = []
  within : ∀ q ∈ c.activeQubits, (c.coordsOf q).x.Within 53 ∧ (c.coordsOf q).y.Within 53

/-- Sheets and polygons whose values can be written without quotes, in colours that are read as they
are written. -/
structure Drawable (c : Circuit) : Prop where
  sheets : ∀ sheet ∈ c.sheets, Directive.IsPlain sheet.name.toList
  styles : ∀ l ∈ c.layers, ∀ f ∈ figuresOf l, (∀ v ∈ f.style.stroke, Directive.IsPlain v.toList) ∧
    ∀ v ∈ f.style.fill, Directive.IsPlain v.toList
  colours : ∀ l ∈ c.layers, ∀ f ∈ figuresOf l, ∀ v ∈ f.body.colour.components,
    v.isFinite ∧ v.ReadsBack

/-- A circuit that can be written in the given detail. -/
structure ExpressibleIn (d : Detail) (c : Circuit) : Prop where
  bare : ∀ op ∈ c.operationsAndMarkers, IsWritten op → op.tag = "" ∧ op.args = []
  within : ∀ q ∈ mentioned c d, (c.coordsOf q).x.Within 53 ∧ (c.coordsOf q).y.Within 53
  drawable : d = .annotated → Drawable c

theorem Expressible.plain (h : Expressible c) : ExpressibleIn .plain c :=
  ⟨h.bare, h.within, fun hd => Detail.noConfusion hd⟩

theorem ExpressibleIn.finite (h : ExpressibleIn d c) : Finite c d := fun q hq =>
  ⟨(h.within q hq).1.1, (h.within q hq).2.1⟩

end Emission

namespace Build

open Emission

variable {text : String} {l : Layer} {op : Operation}

theorem mem_operationsAndMarkers {c : Circuit} {op : Operation} :
    op ∈ c.operationsAndMarkers ↔ ∃ l ∈ c.layers, op ∈ l.operationsAndMarkers := List.mem_flatMap

theorem wellBuilt_of_isWritten (hl : l ∈ (parse text).circuit.layers)
    (hop : op ∈ l.operationsAndMarkers) (hwritten : IsWritten op) : WellBuilt .standard op := by
  rcases List.mem_append.1 hop with hop | hop
  · exact ((sound_parse text hl).placeable op hop).toWellBuilt
  · obtain ⟨k, hk⟩ := List.mem_iff_getElem?.1 hl
    cases (marking_parse hk hop).2 with
    | written built plain => exact built
    | measured name found targets =>
        rcases name with hname | hname
        · exact absurd hname hwritten.1
        · exact absurd hname hwritten.2

/-- A layer with a site of the record has a measurement there. -/
theorem exists_measuring {k : Nat} (hl : (parse text).circuit.layers[k]? = some l) {q : QubitId}
    (hsite : (⟨k, q⟩ : Site) ∈ (tapeOf text).record.toList) :
    ∃ op ∈ l.operations.toList, op.targets.head? = some q := by
  rw [← record_parse, List.mem_map] at hsite
  obtain ⟨e, he, hfst⟩ := hsite
  obtain ⟨-, ops, hops, he⟩ := mem_recordFrom.1 he
  obtain ⟨op, hop, -, hhead, -, -⟩ := mem_stage.1 he
  rw [hfst] at hops hhead
  rw [Nat.sub_zero, List.getElem?_map, hl] at hops
  cases hops
  exact ⟨op, hop, hhead⟩

variable {d : Detail}

/-- A parsed circuit mentions only qubits that have been completed. -/
theorem lt_extent_of_mentioned {q : QubitId} (hq : q ∈ mentioned (parse text).circuit d) :
    q < (draft .standard text).extent := by
  have hactive (hq : q ∈ (parse text).circuit.activeQubits) : q < (draft .standard text).extent := by
    obtain ⟨l, hl, op, hop, hq⟩ := mem_activeQubits.1 hq
    exact lt_extent_of_operation .standard text hl hop hq
  cases d with
  | plain => exact hactive hq
  | annotated =>
      rcases mem_mentioned_annotated.1 hq with hq | hq
      · exact hactive hq
      · obtain ⟨l, hl, o, ho, hq⟩ := Circuit.mem_overlayQubits.1 hq
        exact lt_extent_of_overlay .standard text hl ho hq

/-- Every qubit that a parsed circuit mentions can be named. -/
theorem named_parse {q : QubitId} (hq : q ∈ mentioned (parse text).circuit d) : q ≤ maxQubitId :=
  Nat.le_of_lt_succ (Nat.lt_of_lt_of_le (lt_extent_of_mentioned hq)
    (Circuit.extent_le (drafted_draft .standard text)))

/-- Its qubits are at places of their own. -/
theorem eq_of_coordsOf_parse {q r : QubitId} (hq : q ∈ mentioned (parse text).circuit d)
    (hr : r ∈ mentioned (parse text).circuit d)
    (hplace : ((parse text).circuit.coordsOf q).place = ((parse text).circuit.coordsOf r).place) :
    q = r :=
  Circuit.eq_of_completedCoords (drafted_draft .standard text).situated (named_parse hq)
    (lt_extent_of_mentioned hq) (named_parse hr) (lt_extent_of_mentioned hr)
    (completedCoords_parseWith .standard text (lt_extent_of_mentioned hq))
    (completedCoords_parseWith .standard text (lt_extent_of_mentioned hr)) hplace

theorem number_parse_le {q : QubitId} (hq : q ∈ mentioned (parse text).circuit d) :
    (numberingOf (parse text).circuit d).number q ≤ maxQubitId := by
  have hsubset : mentioned (parse text).circuit d ⊆ List.range (maxQubitId + 1) := fun r hr =>
    List.mem_range.2 (Nat.lt_succ_of_le (named_parse hr))
  have hlength := ((nodup_mentioned (parse text).circuit d).subperm hsubset).length_le
  rw [List.length_range] at hlength
  exact Nat.le_of_lt_succ (Nat.lt_of_lt_of_le (number_lt_length hq) hlength)

theorem mentioned_of_mem (hl : l ∈ (parse text).circuit.layers) (hop : op ∈ l.operationsAndMarkers)
    {q : QubitId} (hq : q ∈ op.targets) : q ∈ mentioned (parse text).circuit d :=
  mem_mentioned_of_active (mem_activeQubits.2 ⟨l, hl, op, hop, hq⟩) d

theorem writable_parse (h : ExpressibleIn d (parse text).circuit)
    (hl : l ∈ (parse text).circuit.layers) (hop : op ∈ l.operationsAndMarkers)
    (hwritten : IsWritten op) : Writable (numberingOf (parse text).circuit d) op := by
  obtain ⟨htag, hargs⟩ := h.bare op (mem_operationsAndMarkers.2 ⟨l, hl, hop⟩) hwritten
  refine ⟨wellBuilt_of_isWritten hl hop hwritten, htag, hargs, ?_⟩
  exact op.distinct.map_on fun q hq r hr heq =>
    number_injective (mentioned_of_mem hl hop hq) (mentioned_of_mem hl hop hr) heq

end Build

end StimOverlay
