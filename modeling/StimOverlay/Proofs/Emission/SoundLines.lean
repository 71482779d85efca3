import StimOverlay.Proofs.Emission.DetectorLabels
import StimOverlay.Proofs.Emission.WritableSheets

/-! Sound lines. Everything that is written for a circuit without tags and arguments can be read again: a
group of operations under one heading is of one gate or of one family of products, a detector or an
observable refers to what stands before it, and qubits are declared at places of their own. -/

namespace StimOverlay

open Build Numeric

namespace Emission

open Operation

theorem heading_of_bare {op : Operation} (htag : op.tag = "") (hargs : op.args = []) :
    op.heading = op.headName := by
  rw [heading, htag, hargs]
  exact String.append_empty.trans String.append_empty

variable {n : Numbering} {a b op : Operation}

theorem heading_of_writable (h : Writable n op) : op.heading = op.headName :=
  heading_of_bare h.untagged h.bare

/-- Under the name of a gate stand operations of that gate only. -/
theorem gate_eq_of_headName (ha : a.gate ∈ Gate.standard) (hb : Context.standard.Knows b.gate)
    (h : b.headName = a.headName) : b.gate = a.gate := by
  have hname := headName_of_mem_standard ha
  rcases hb.cases with hmem | ⟨family, hfamily, bases, -, hgate⟩
  · rw [headName_of_mem_standard hmem, hname] at h
    have hfound := (gate_facts _ hmem).2.2.2.2.2
    rw [h, (gate_facts _ ha).2.2.2.2.2] at hfound
    exact (Option.some_inj.1 hfound).symm
  · rw [headName_product hfamily hgate, hname] at h
    exact absurd (h ▸ hfamily) (family_notMem_standard _ ha)

/-- Under the name of a family stand products of that family only. -/
theorem product_of_headName {family : String} (hfamily : family ∈ Gate.productFamilies)
    (hb : Context.standard.Knows b.gate) (h : b.headName = family) :
    ∃ bases, bases ≠ [] ∧ b.gate = .product family bases := by
  rcases hb.cases with hmem | ⟨family', hfamily', bases, hne, hgate⟩
  · rw [headName_of_mem_standard hmem] at h
    exact absurd (h ▸ hfamily) (family_notMem_standard _ hmem)
  · rw [headName_product hfamily' hgate] at h
    exact ⟨bases, hne, h ▸ hgate⟩

/-- Operations that can be written under numbers that text can name. -/
def Numberable (n : Numbering) (ops : List Operation) : Prop :=
  ∀ op ∈ ops, Writable n op ∧ ∀ q ∈ op.targets, n.number q ≤ maxQubitId

/-- Whatever is written for a group is sound. -/
theorem sound_groupLines {heading : String} {ops : List Operation} (h : Numberable n ops)
    (hheading : ∀ op ∈ ops, op.heading = heading) {line : Line}
    (hline : line ∈ groupLines heading ops) (k : Nat) : line.Sound n k := by
  cases ops with
  | nil => cases hline
  | cons first rest =>
      have hname (op : Operation) (hop : op ∈ first :: rest) : op.headName = heading :=
        (heading_of_writable (h op hop).1).symm.trans (hheading op hop)
      have hfirst := h first List.mem_cons_self
      rw [groupLines] at hline
      split_ifs at hline with hreference hproduct hfusible
      · cases hline
      · rw [List.mem_singleton.1 hline]
        rcases hfirst.1.built.known.cases with hmem | ⟨family, hfamily, bases, hne, hgate⟩
        · rw [Gate.bases?_of_mem_standard hmem] at hproduct
          cases hproduct
        · have hfamilyName : family = heading :=
            (headName_product hfamily hgate).symm.trans (hname first List.mem_cons_self)
          subst hfamilyName
          refine ⟨⟨hfamily, fun op hop => ⟨(h op hop).1, ?_⟩⟩, List.cons_ne_nil _ _,
            fun op hop => (h op hop).2⟩
          exact product_of_headName hfamily (h op hop).1.built.known (hname op hop)
      all_goals
        have hmem : first.gate ∈ Gate.standard := by
          rcases hfirst.1.built.known.cases with hmem | ⟨family, hfamily, bases, -, hgate⟩
          · exact hmem
          · rw [hgate, Gate.bases?_product hfamily] at hproduct
            exact absurd rfl hproduct
        have hgateName : first.gate.name = heading :=
          (headName_of_mem_standard hmem).symm.trans (hname first List.mem_cons_self)
        have hsame (op : Operation) (hop : op ∈ first :: rest) : op.gate = first.gate :=
          gate_eq_of_headName hmem (h op hop).1.built.known
            ((hname op hop).trans (hname first List.mem_cons_self).symm)
        obtain ⟨hdetector, hobservable⟩ := not_or.1 hreference
      · rw [List.mem_singleton.1 hline]
        exact ⟨⟨first.gate, hmem, hgateName, hdetector, hobservable,
          fun op hop => ⟨(h op hop).1, hsame op hop⟩⟩, List.cons_ne_nil _ _,
          fun op hop => (h op hop).2⟩
      · obtain ⟨op, hop, rfl⟩ := List.mem_map.1 hline
        refine ⟨⟨first.gate, hmem, hgateName, hdetector, hobservable, ?_⟩, List.cons_ne_nil _ _, ?_⟩
        · intro op' hop'
          rw [List.mem_singleton.1 hop']
          exact ⟨(h op hop).1, hsame op hop⟩
        · intro op' hop'
          rw [List.mem_singleton.1 hop']
          exact (h op hop).2

end Emission

namespace Build

open Emission

variable {text : String} {l : Layer}

theorem numberable_parse {d : Detail} (h : ExpressibleIn d (parse text).circuit)
    (hl : l ∈ (parse text).circuit.layers) {ops : List Operation}
    (hops : ∀ op ∈ ops, op ∈ l.operationsAndMarkers ∧ IsWritten op) :
    Numberable (numberingOf (parse text).circuit d) ops := fun op hop =>
  ⟨writable_parse h hl (hops op hop).1 (hops op hop).2, fun _ hq =>
    number_parse_le (mentioned_of_mem hl (hops op hop).1 hq)⟩

/-- A group is written if its first operation is. -/
theorem isWritten_of_groupLines {heading : String} {ops : List Operation}
    (htold : ∀ op ∈ ops, Told op) (hheading : ∀ op ∈ ops, op.heading = heading) {line : Line}
    (hline : line ∈ groupLines heading ops) : ∀ op ∈ ops, IsWritten op := by
  cases ops with
  | nil => cases hline
  | cons first rest =>
      have hfirst : IsWritten first := by
        by_contra hnot
        rw [IsWritten, ← not_or, not_not] at hnot
        rw [groupLines, if_pos hnot] at hline
        cases hline
      intro op hop
      refine ((htold op hop).isWritten_congr (htold first List.mem_cons_self) ?_).2 hfirst
      exact (hheading op hop).trans (hheading first List.mem_cons_self).symm

/-- A line of operations is written for operations of its layer that share its heading. -/
theorem exists_group (hl : l ∈ (parse text).circuit.layers) {line : Line}
    (hline : line ∈ l.groups.flatMap fun group => groupLines group.1 group.2) :
    ∃ heading ops, line ∈ groupLines heading ops ∧
      ∀ op ∈ ops, op ∈ l.operationsAndMarkers ∧ IsWritten op ∧ op.heading = heading := by
  have htells := tells_parse hl
  have hgroup {xs : List Operation} (hxs : ∀ op ∈ xs, op ∈ l.operationsAndMarkers)
      (hmem : line ∈ (Layer.groupByHeading xs).flatMap fun group => groupLines group.1 group.2) :
      ∃ heading ops, line ∈ groupLines heading ops ∧
        ∀ op ∈ ops, op ∈ l.operationsAndMarkers ∧ IsWritten op ∧ op.heading = heading := by
    obtain ⟨group, hgroup, hline⟩ := List.mem_flatMap.1 hmem
    rw [Layer.groupByHeading_eq] at hgroup
    obtain ⟨heading, -, rfl⟩ := List.mem_map.1 hgroup
    have hheading : ∀ op ∈ xs.filter (·.heading == heading), op.heading = heading := fun op hop =>
      beq_iff_eq.1 (List.mem_filter.1 hop).2
    have hinside : ∀ op ∈ xs.filter (·.heading == heading), op ∈ l.operationsAndMarkers :=
      fun op hop => hxs op (List.mem_filter.1 hop).1
    have hwritten := isWritten_of_groupLines (fun op hop => htells.told op (hinside op hop))
      hheading hline
    exact ⟨heading, _, hline, fun op hop => ⟨hinside op hop, hwritten op hop, hheading op hop⟩⟩
  rw [Layer.groups_eq htells.filed, List.flatMap_append] at hline
  rcases List.mem_append.1 hline with hline | hline
  · exact hgroup (fun op hop => List.mem_append_left _ hop) hline
  · exact hgroup (fun op hop => List.mem_append_right _ hop) hline

/-- What a line of the plain text is. -/
inductive PlainLine (c : Circuit) : Line → Prop
  | coordinates {q : QubitId} (active : q ∈ c.activeQubits) :
      PlainLine c (.coordinates (c.coordsOf q) q)
  | detector {label : Label} {place : Point} (placed : label.place = place.text) (offsets : List Int) :
      PlainLine c (.detector label offsets)
  | observable (index : Nat) (offsets : List Int) : PlainLine c (.observable index offsets)
  | tick : PlainLine c .tick
  | group {heading : String} {ops : List Operation} {line : Line} (mem : line ∈ groupLines heading ops)
      (built : ∀ op ∈ ops, WellBuilt .standard op) (written : ∀ op ∈ ops, IsWritten op)
      (inside : ∀ op ∈ ops, op ∈ c.operationsAndMarkers) (headed : ∀ op ∈ ops, op.heading = heading) :
      PlainLine c line

theorem plainLine_of_mem {line : Line} (h : line ∈ lines (parse text).circuit .plain) :
    PlainLine (parse text).circuit line := by
  rcases mem_lines h with hmem | hmem
  · obtain ⟨hd, -⟩ | ⟨q, hq, rfl⟩ := headerLines_cases hmem
    · cases hd
    · exact .coordinates ((numbered_perm _ _).mem_iff.1 hq)
  · rcases bodyLines_origin hmem with ⟨p, hmem⟩ | ⟨p, -, hmem⟩ | rfl | ⟨l, hlayer, hmem⟩
    · obtain ⟨label, offsets, rfl⟩ := eq_detector_of_labelDetectors hmem
      obtain ⟨place, hplace⟩ := exists_place hmem
      exact .detector hplace offsets
    · obtain ⟨entry, -, rfl⟩ := List.mem_map.1 hmem
      exact .observable _ _
    · exact .tick
    · have hmem := (List.mem_append.1 hmem).resolve_left List.not_mem_nil
      obtain ⟨heading, ops, hmem, hops⟩ := exists_group hlayer hmem
      exact .group hmem (fun op hop => wellBuilt_of_isWritten hlayer (hops op hop).1 (hops op hop).2.1)
        (fun op hop => (hops op hop).2.1)
        (fun op hop => mem_operationsAndMarkers.2 ⟨l, hlayer, (hops op hop).1⟩)
        (fun op hop => (hops op hop).2.2)

variable {d : Detail}

/-- Everything that is written of a layer is sound. -/
theorem sound_layerLines (h : ExpressibleIn d (parse text).circuit)
    (hl : l ∈ (parse text).circuit.layers) {line : Line} (hline : line ∈ layerLines d l) (k : Nat) :
    line.Sound (numberingOf (parse text).circuit d) k := by
  rcases List.mem_append.1 hline with hline | hline
  · cases d with
    | plain => cases hline
    | annotated =>
        rw [if_pos rfl, flatMap_overlayLines] at hline
        obtain ⟨f, hf, hline⟩ := List.mem_flatMap.1 hline
        obtain ⟨hstyle, hcolour⟩ := isStyle_of_drawable (h.drawable rfl) hl hf
        rcases List.mem_pair.1 hline with rfl | rfl
        · exact hstyle
        · exact ⟨hcolour, (onLines_of_figure hl hf).corners, fun q hq =>
            number_parse_le (corner_mem_mentioned hl hf hq)⟩
  · obtain ⟨heading, ops, hline, hops⟩ := exists_group hl hline
    have hnumberable := numberable_parse h hl fun op hop => ⟨(hops op hop).1, (hops op hop).2.1⟩
    exact sound_groupLines hnumberable (fun op hop => (hops op hop).2.2) hline k

/-- Everything that is written in front of the layers is sound. -/
theorem sound_headerLines (h : ExpressibleIn d (parse text).circuit) {line : Line}
    (hline : line ∈ headerLines (parse text).circuit d) (k : Nat) :
    line.Sound (numberingOf (parse text).circuit d) k := by
  obtain ⟨hd, sheet, hsheet, rfl⟩ | ⟨q, hq, rfl⟩ := headerLines_cases hline
  · have hdeclarable := declarable_parseWith .standard text
    have hlisted : (sheet.name, sheet.z) ∈ sheetsOf (parse text).circuit :=
      List.mem_map_of_mem (f := fun sheet : Sheet => (sheet.name, sheet.z)) hsheet
    exact ⟨⟨(h.drawable hd).sheets sheet hsheet, hdeclarable.newline _ hlisted⟩,
      hdeclarable.height _ hlisted⟩
  · have hmentioned := (numbered_perm _ d).mem_iff.1 hq
    obtain ⟨hx, hy⟩ := h.finite q hmentioned
    exact ⟨hx, hy, number_parse_le hmentioned⟩

variable {n : Numbering}

/-- Lines that need nothing from the record are sound, and those that refer to it are if they count
back to something that is written before them. -/
theorem soundFrom_of_mentions {ls : List Line} {k i : Nat} {before : List (Nat × Operation)}
    (hk : (recordOf before).length = k)
    (hplain : ∀ l ∈ ls, ¬l.Refers → l.Sound n 0)
    (hlabels : ∀ label offsets, .detector label offsets ∈ ls →
      IsPlace label.place ∧ label.time ≤ 2 ^ 64)
    (hindices : ∀ index offsets, .observable index offsets ∈ ls → index < 2 ^ 53)
    (hmentions : ∀ m ∈ mentions i before ls, m.offsets ≠ [] ∧
      ∀ o ∈ m.offsets, o < 0 ∧ 0 ≤ ((recordOf m.before).length : Int) + o) :
    SoundFrom n k ls := by
  induction ls generalizing k i before with
  | nil => exact .nil k
  | cons l rest ih =>
      have hhead : l.Sound n k := by
        cases l with
        | detector label offsets =>
            obtain ⟨hplace, htime⟩ := hlabels label offsets List.mem_cons_self
            obtain ⟨hne, hrange⟩ := hmentions ⟨none, offsets, i, before⟩ List.mem_cons_self
            exact ⟨hplace, htime, hne, hk ▸ hrange⟩
        | observable index offsets =>
            obtain ⟨hne, hrange⟩ := hmentions ⟨some index, offsets, i, before⟩ List.mem_cons_self
            exact ⟨hindices index offsets List.mem_cons_self, hne, hk ▸ hrange⟩
        | _ => exact hplain _ List.mem_cons_self id
      have hgrown : (recordOf (before ++ l.ops.map (i, ·))).length = k + l.measurements := by
        rw [recordOf_append, List.length_append, hk, recordOf_map, List.length_map,
          ← List.countP_eq_length_filter]
        rfl
      refine .cons hhead (ih (i := l.next i) hgrown ?_ ?_ ?_ ?_)
      · exact fun l hl => hplain l (List.mem_cons_of_mem _ hl)
      · exact fun label offsets hl => hlabels label offsets (List.mem_cons_of_mem _ hl)
      · exact fun index offsets hl => hindices index offsets (List.mem_cons_of_mem _ hl)
      · exact fun m hm => hmentions m (List.mem_append_right _ hm)

theorem exists_mention {ls : List Line} {l : Line} (hl : l ∈ ls) {r : Option Nat × List Int}
    (hr : l.reference? = some r) (i : Nat) (before : List (Nat × Operation)) :
    ∃ m ∈ mentions i before ls, m.index = r.1 ∧ m.offsets = r.2 := by
  induction ls generalizing i before with
  | nil => cases hl
  | cons first rest ih =>
      rcases List.mem_cons.1 hl with rfl | hl
      · refine ⟨⟨r.1, r.2, i, before⟩, List.mem_append_left _ ?_, rfl, rfl⟩
        rw [hr]
        exact List.mem_singleton_self _
      · obtain ⟨m, hm, hsame⟩ := ih hl (first.next i) (before ++ first.ops.map (i, ·))
        exact ⟨m, List.mem_append_right _ hm, hsame⟩

theorem exists_fit {m : Mention} (hm : m ∈ mentions 0 [] (lines (parse text).circuit d)) :
    ∃ entry ∈ (Pending.ofCircuit (parse text).circuit).entries,
      Fits (parse text).circuit.measurements (operationsFrom 0 (parse text).circuit.layers) m
        entry := by
  obtain ⟨entries, hperm, -, hfits⟩ := fits_lines text d
  obtain ⟨i, hi, rfl⟩ := List.getElem_of_mem hm
  have hi' := hi.trans_eq hfits.length_eq
  exact ⟨entries[i], hperm.mem_iff.1 (List.getElem_mem hi'), hfits.get hi hi'⟩

/-- The lines of an expressible circuit can be run one after another. Single precision bounds how many
detectors there are, and so the times that they are labelled with, and the indices of observables. -/
theorem soundFrom_lines (h : ExpressibleIn d (parse text).circuit) :
    SoundFrom (numberingOf (parse text).circuit d) 0 (lines (parse text).circuit d) := by
  refine soundFrom_of_mentions (i := 0) (show (recordOf []).length = 0 from rfl) ?_ ?_ ?_ ?_
  · intro l hl hplain
    rcases mem_lines hl with hl | hl
    · exact sound_headerLines h hl 0
    · rcases bodyLines_cases hl with hrefers | rfl | ⟨layer, hlayer, hl⟩
      · exact absurd hrefers hplain
      · trivial
      · exact sound_layerLines h hlayer hl 0
  · intro label offsets hl
    have hcentral : ∀ d ∈ ((parse text).circuit.detectors .output).detectors,
        Central (parse text).circuit d.qubits := fun e he q hq =>
      h.within q (mem_mentioned_of_active (active_of_detector he q hq) d)
    obtain ⟨hplace, htime⟩ := labelled_lines (Circuit.length_detectors_le _ _)
      (fun e he => (hcentral e he).placeable) _ hl
    exact ⟨hplace, htime.le.trans (by decide)⟩
  · intro index offsets hl
    obtain ⟨m, hm, hindex, -⟩ := exists_mention hl rfl 0 []
    obtain ⟨entry, hentry, hfit⟩ := exists_fit hm
    rcases List.mem_append.1 hentry with hentry | hentry
    · obtain ⟨d, -, rfl⟩ := List.mem_map.1 hentry
      rw [hfit.index] at hindex
      cases hindex
    · obtain ⟨e, he, rfl⟩ := List.mem_map.1 hentry
      rw [hfit.index] at hindex
      cases hindex
      exact (Circuit.observable_lt_indexModulus he).trans (by decide)
  · intro m hm
    obtain ⟨entry, -, hfit⟩ := exists_fit hm
    refine ⟨?_, fun o ho => ?_⟩
    · obtain ⟨last, hlast, -⟩ := hfit.due.last
      rw [hfit.offsets]
      rintro hnil
      rw [List.map_eq_nil_iff.1 hnil] at hlast
      cases hlast
    · obtain ⟨k, hpos, hle, rfl⟩ := range_of_fits hfit o ho
      omega

end Build

end StimOverlay
