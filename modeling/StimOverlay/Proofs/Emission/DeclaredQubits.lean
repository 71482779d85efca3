import Mathlib.Data.Set.Function
import StimOverlay.Proofs.Emission.WrittenLayers

/-! Declared qubits. Every qubit that is written anywhere has been declared in front, under a number of
its own, so that the text of no line depends on what becomes of qubits without a number. -/

namespace StimOverlay

open Numeric

namespace Emission

/-- The qubits whose numbers stand on a line. -/
def Line.qubits : Line → List QubitId
  | .coordinates _ q => [q]
  | .polygonBody _ corners => corners
  | .operations _ ops => ops.flatMap (·.targets)
  | .products _ ops => ops.flatMap (·.targets)
  | _ => []

/-- Whether a line declares a qubit. -/
def Line.isDeclaration : Line → Bool
  | .coordinates .. => true
  | _ => false

variable {c : Circuit} {d : Detail} {l : Layer} {n n' : Numbering}

theorem Numbering.text_congr {qubits : List QubitId} (h : ∀ q ∈ qubits, n.number q = n'.number q) :
    n.text qubits = n'.text qubits := by
  rw [Numbering.text, Numbering.text,
    List.map_congr_left fun q hq => congrArg toString (h q hq)]

theorem productText_congr {op : Operation} (h : ∀ q ∈ op.targets, n.number q = n'.number q) :
    productText n op = productText n' op := by
  rw [productText, productText, List.map_congr_left]
  intro factor hfactor
  rw [h factor.2 (List.of_mem_zip hfactor).2]

/-- The text of a line depends on the numbers of its qubits only. -/
theorem Line.text_congr {line : Line} (h : ∀ q ∈ line.qubits, n.number q = n'.number q) :
    line.text n = line.text n' := by
  cases line with
  | coordinates place q =>
      exact congrArg (fun k : Nat => s!"QUBIT_COORDS({place.text}) {k}") (h q (List.mem_singleton_self q))
  | polygonBody colour corners =>
      exact congrArg (fun t : String => s!"#!pragma POLYGON({colour.text}) {t}") (Numbering.text_congr h)
  | operations heading ops =>
      exact congrArg (fun t : String => s!"{heading} {t}") (Numbering.text_congr h)
  | products heading ops =>
      have hops : ops.map (productText n) = ops.map (productText n') :=
        List.map_congr_left fun op hop => productText_congr fun q hq =>
          h q (List.mem_flatMap.2 ⟨op, hop, hq⟩)
      exact congrArg (fun texts => s!"{heading} " ++ String.intercalate " " texts) hops
  | _ => rfl

theorem Line.Refers.qubits_eq {line : Line} (h : line.Refers) : line.qubits = [] := by
  cases line with
  | detector => rfl
  | observable => rfl
  | _ => exact h.elim

theorem Line.Refers.not_isDeclaration {line : Line} (h : line.Refers) : line.isDeclaration = false := by
  cases line with
  | detector => rfl
  | observable => rfl
  | _ => exact h.elim

theorem Line.OfLayer.not_isDeclaration {line : Line} (h : line.OfLayer) :
    line.isDeclaration = false := by
  cases line with
  | coordinates => exact h.elim
  | _ => rfl

theorem mentioned_of_target {op : Operation} (hl : l ∈ c.layers) (hop : op ∈ l.operationsAndMarkers)
    {q : QubitId} (hq : q ∈ op.targets) : q ∈ mentioned c d :=
  mem_mentioned_of_active (Build.mem_activeQubits.2 ⟨l, hl, op, hop, hq⟩) d

theorem mem_mentioned_iff {q : QubitId} : q ∈ mentioned c d ↔
    (∃ l ∈ c.layers, ∃ op ∈ l.operationsAndMarkers, q ∈ op.targets) ∨
      d = .annotated ∧ ∃ l ∈ c.layers, ∃ o ∈ l.overlays.toList, q ∈ o.qubits := by
  rw [← Build.mem_activeQubits, ← Circuit.mem_overlayQubits]
  cases d with
  | plain => exact ⟨.inl, fun h => h.resolve_right fun h => Detail.noConfusion h.1⟩
  | annotated => exact mem_mentioned_annotated.trans (or_congr_right (and_iff_right rfl).symm)

theorem mentioned_of_layerLines (hl : l ∈ c.layers) {line : Line} (h : line ∈ layerLines d l)
    {q : QubitId} (hq : q ∈ line.qubits) : q ∈ mentioned c d := by
  rcases List.mem_append.1 h with hoverlay | hgroup
  · split_ifs at hoverlay with hd
    · obtain ⟨o, ho, hline⟩ := List.mem_flatMap.1 hoverlay
      refine mem_mentioned_iff.2 (.inr ⟨hd, l, hl, o, ho, ?_⟩)
      cases o with
      | polygon p =>
          rcases List.mem_pair.1 hline with rfl | rfl
          · cases hq
          · exact hq
      | _ => cases hline
    · cases hoverlay
  · obtain ⟨group, hmem, hline⟩ := List.mem_flatMap.1 hgroup
    obtain ⟨held, -, hsubset, rfl | rfl⟩ := groupLines_cases hline
    all_goals
      obtain ⟨op, hop, hq⟩ := List.mem_flatMap.1 hq
      exact mentioned_of_target hl (mem_groups hmem (hsubset hop)).1 hq

/-- What is written anywhere has been collected. -/
theorem mentioned_of_lines {line : Line} (h : line ∈ lines c d) {q : QubitId}
    (hq : q ∈ line.qubits) : q ∈ mentioned c d := by
  rcases mem_lines h with hheader | hbody
  · obtain ⟨-, s, -, rfl⟩ | ⟨r, hr, rfl⟩ := headerLines_cases hheader
    · cases hq
    · rw [List.mem_singleton.1 hq]
      exact (numbered_perm c d).mem_iff.1 hr
  · rcases bodyLines_cases hbody with hrefers | rfl | ⟨l, hl, hline⟩
    · rw [hrefers.qubits_eq] at hq
      cases hq
    · cases hq
    · exact mentioned_of_layerLines hl hline hq

/-- The declarations stand in front, in the order of the new numbers. -/
theorem filter_declarations (c : Circuit) (d : Detail) : (lines c d).filter Line.isDeclaration =
    (numbered c d).map fun q => .coordinates (c.coordsOf q) q := by
  obtain ⟨n, hn⟩ := exists_ticks c d
  have hticks : (List.replicate n Line.tick).filter Line.isDeclaration = [] :=
    List.filter_eq_nil_iff.2 fun line hline => by simp [List.eq_of_mem_replicate hline, Line.isDeclaration]
  have hbody : (bodyLines c d (.ofCircuit c) c.layers).filter Line.isDeclaration = [] := by
    refine List.filter_eq_nil_iff.2 fun line hline => Bool.eq_false_iff.1 ?_
    rcases bodyLines_cases hline with hrefers | rfl | ⟨l, -, hlayer⟩
    · exact hrefers.not_isDeclaration
    · rfl
    · exact (ofLayer_layerLines hlayer).not_isDeclaration
  have hsheets : (if d = .annotated then
      (c.sheets.filter (·.name != defaultSheet)).map fun s => Line.sheet s.name s.z
      else []).filter Line.isDeclaration = [] := by
    refine List.filter_eq_nil_iff.2 fun line hline => ?_
    split_ifs at hline
    · obtain ⟨s, -, rfl⟩ := List.mem_map.1 hline
      simp [Line.isDeclaration]
    · cases hline
  have hcoordinates : ((numbered c d).map fun q => Line.coordinates (c.coordsOf q) q).filter
      Line.isDeclaration = (numbered c d).map fun q => .coordinates (c.coordsOf q) q := by
    refine List.filter_eq_self.2 fun line hline => ?_
    obtain ⟨q, -, rfl⟩ := List.mem_map.1 hline
    rfl
  have hall := congrArg (List.filter Line.isDeclaration) hn
  rw [List.filter_append, List.filter_append, hbody, hticks, List.append_nil, List.append_nil] at hall
  rw [← hall, headerLines, List.filter_append, hsheets, List.nil_append, hcoordinates]

theorem Numbering.mem_ofList {qubits : List QubitId} {q : QubitId} :
    q ∈ (Numbering.ofList qubits).numbers ↔ q ∈ qubits := by
  rw [Numbering.ofList, Std.TreeMap.mem_ofList, List.contains_iff_mem, List.zipIdx_map_fst]

theorem Numbering.map_number_ofList {qubits : List QubitId} (hnodup : qubits.Nodup) :
    qubits.map (Numbering.ofList qubits).number = List.range qubits.length := by
  refine List.ext_getElem? fun i => ?_
  rw [List.getElem?_map]
  cases hi : qubits[i]? with
  | none =>
      have hle := List.getElem?_eq_none_iff.1 hi
      rw [Option.map_none, List.getElem?_eq_none (by rwa [List.length_range])]
  | some q =>
      have hlt := (List.getElem?_eq_some_iff.1 hi).1
      rw [Option.map_some, Numbering.number_ofList hnodup hi, List.getElem?_range hlt]

theorem finite_of_packed (h : ∀ p ∈ c.packed, p.x.isFinite ∧ p.y.isFinite) (d : Detail) :
    Finite c d := by
  intro q _
  rw [Circuit.coordsOf]
  cases hq : c.packed[q]? with
  | none => exact ⟨rfl, rfl⟩
  | some p => exact h p (Array.mem_of_getElem? hq)

/-- The numbers under which a circuit is written are good for everything that is written. -/
structure WellNumbered (c : Circuit) (d : Detail) : Prop where
  /-- The qubits that get numbers are those of operations and markers, and those of overlays if these are
  written as well. -/
  mentioned : ∀ q, q ∈ mentioned c d ↔
    (∃ l ∈ c.layers, ∃ op ∈ l.operationsAndMarkers, q ∈ op.targets) ∨
      d = .annotated ∧ ∃ l ∈ c.layers, ∃ o ∈ l.overlays.toList, q ∈ o.qubits
  once : (Emission.mentioned c d).Nodup
  /-- They are numbered one to one and without gaps. -/
  bijective : Set.BijOn (numberingOf c d).number {q | q ∈ Emission.mentioned c d}
    (Set.Iio (Emission.mentioned c d).length)
  /-- The numbers follow the places, and the numbers of the circuit where places agree. -/
  ordered : ∀ q ∈ Emission.mentioned c d, ∀ r ∈ Emission.mentioned c d,
    ((numberingOf c d).number q < (numberingOf c d).number r ↔ rank c q < rank c r)
  /-- Each of them is declared once, in the order of the numbers. -/
  declared : ∃ qubits : List QubitId, qubits.Perm (Emission.mentioned c d) ∧
    qubits.map (numberingOf c d).number = List.range (Emission.mentioned c d).length ∧
    (lines c d).filter Line.isDeclaration = qubits.map fun q => .coordinates (c.coordsOf q) q
  /-- Whatever stands on a line has a number. -/
  covered : ∀ line ∈ lines c d, ∀ q ∈ line.qubits, q ∈ (numberingOf c d).numbers
  /-- Numbers of other qubits are of no account. -/
  settled : ∀ n : Numbering, (∀ q ∈ Emission.mentioned c d, n.number q = (numberingOf c d).number q) →
    String.intercalate "\n" ((lines c d).map (Line.text n)) = text c d

/-- **Renumbering is one to one and complete**, for circuits with finite coordinates. -/
theorem wellNumbered (h : ∀ p ∈ c.packed, p.x.isFinite ∧ p.y.isFinite) (d : Detail) :
    WellNumbered c d where
  mentioned _ := mem_mentioned_iff
  once := nodup_mentioned c d
  bijective := by
    refine ⟨fun q hq => number_lt_length hq, fun q hq r hr => number_injective hq hr, fun i hi => ?_⟩
    have hlength : i < (numbered c d).length := (numbered_perm c d).length_eq ▸ hi
    have hat := List.getElem?_eq_getElem hlength
    exact ⟨_, (numbered_perm c d).mem_iff.1 (List.getElem_mem hlength),
      Numbering.number_ofList (nodup_numbered c d) hat⟩
  ordered _ hq _ hr := number_lt_number_iff (finite_of_packed h d) hq hr
  declared := by
    refine ⟨numbered c d, numbered_perm c d, ?_, filter_declarations c d⟩
    rw [← (numbered_perm c d).length_eq]
    exact Numbering.map_number_ofList (nodup_numbered c d)
  covered line hline q hq :=
    Numbering.mem_ofList.2 ((numbered_perm c d).mem_iff.2 (mentioned_of_lines hline hq))
  settled n hn := by
    rw [text]
    refine congrArg _ (List.map_congr_left fun line hline => Line.text_congr fun q hq => ?_)
    exact hn q (mentioned_of_lines hline hq)

/-- Qubits at one place but for the sign of a zero, one without coordinates, and a polygon with a corner that
no operation acts on. -/
theorem wellNumbered_shared_place :
    let place (negative : Bool) : Point := ⟨.finite negative 0 _ (Format.canonical_zero _), .ofNat _ 1⟩
    let layer := ((Layer.startingWith (.onQubit ⟨"H", 1, true, .unitary⟩ "" [] 5 1)).insert
      (.onQubit ⟨"M", 1, true, .measurement⟩ "" [] 1 2)).draw
        (.polygon ⟨3, 4, false, defaultSheet, none, none, ⟨.zero, .zero, .zero, .zero⟩, [0, 1]⟩)
    let c : Circuit := { schedule := ⟨#[], layer⟩, packed := #[place false, place true] }
    let n := numberingOf c .annotated
    (∀ p ∈ c.packed, p.x.isFinite ∧ p.y.isFinite) ∧ WellNumbered c .annotated ∧
      n.number 5 < n.number 0 ∧ n.number 0 < n.number 1 := by
  intro place layer c n
  have hfinite : ∀ p ∈ c.packed, p.x.isFinite ∧ p.y.isFinite := by decide +kernel
  have hnumbered : WellNumbered c .annotated := wellNumbered hfinite .annotated
  have hmentioned : mentioned c .annotated = [0, 1, 5] := by decide +kernel
  have hordered := hnumbered.ordered
  rw [hmentioned] at hordered
  refine ⟨hfinite, hnumbered, ?_, ?_⟩
  · exact (hordered 5 (by decide) 0 (by decide)).2 (by decide +kernel)
  · exact (hordered 0 (by decide) 1 (by decide)).2 (by decide +kernel)

end Emission

end StimOverlay
