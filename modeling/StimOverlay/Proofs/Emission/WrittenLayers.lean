import StimOverlay.Proofs.Emission.QubitNumbers
import StimOverlay.Proofs.RoundTrip.LineRuns

/-! Written layers. The lines that are written for a circuit can be read again one after another: ticks
tell its layers apart, and between them stand the operations of one layer under their headings. Everything
in a layer is written there exactly once, except that detectors and observables have lines of their own in
place of their markers. -/

namespace StimOverlay

open Build Numeric

namespace Operation

/-- The name that a heading starts with. -/
def headName (op : Operation) : String :=
  if op.gate.bases?.isSome then op.gate.family else op.gate.name

theorem toList_heading (op : Operation) :
    ∃ rest, op.heading.toList = op.headName.toList ++ rest ∧
      ∀ c ∈ rest.head?, c = '[' ∨ c = '(' := by
  let tag := if op.tag.isEmpty then "" else "[" ++ String.ofList (escapeTag op.tag.toList) ++ "]"
  let args := if op.args.isEmpty then ""
    else "(" ++ String.intercalate ", " (op.args.map Binary.text) ++ ")"
  refine ⟨tag.toList ++ args.toList, ?_, ?_⟩
  · rw [← List.append_assoc, ← String.toList_append, ← String.toList_append]
    rfl
  · have hargs : ∀ c ∈ args.toList.head?, c = '(' := by
      intro c hc
      by_cases hempty : op.args.isEmpty
      · simp [args, hempty] at hc
      · simp [args, hempty] at hc
        exact hc.symm
    intro c hc
    by_cases hempty : op.tag.isEmpty
    · simp only [tag, hempty, if_true, String.toList_empty, List.nil_append] at hc
      exact .inr (hargs c hc)
    · simp [tag, hempty] at hc
      exact .inl hc.symm

/-- No character of the name starts a tag or arguments. -/
def Plain (name : String) : Prop := ∀ c ∈ name.toList, c ≠ '[' ∧ c ≠ '('

instance (name : String) : Decidable (Plain name) :=
  List.decidableBAll _ name.toList

/-- The heading gives away the name in it. -/
theorem headName_of_heading {a b : Operation} (ha : Plain a.headName) (hb : Plain b.headName)
    (h : a.heading = b.heading) : a.headName = b.headName := by
  have hname (op : Operation) (hop : Plain op.headName) :
      op.heading.toList.takeWhile (fun c => c != '[' && c != '(') = op.headName.toList := by
    obtain ⟨rest, heq, hrest⟩ := toList_heading op
    rw [heq]
    refine (Text.takeWhile_run (fun c hc => by simp [hop c hc]) fun c hc => ?_).1
    rcases hrest c hc with rfl | rfl <;> simp
  exact String.toList_inj.1 ((hname a ha).symm.trans (h ▸ hname b hb))

end Operation

namespace Emission

open Operation

theorem plain_standard : ∀ g ∈ Gate.standard, Plain g.name := by decide

theorem plain_families : ∀ family ∈ Gate.productFamilies, Plain family ∧
    family ≠ detectorName ∧ family ≠ observableName := by decide

theorem acting_standard : ∀ g ∈ Gate.standard, g.isMarker = false →
    g.name ≠ detectorName ∧ g.name ≠ observableName := by decide

theorem family_notMem_standard : ∀ g ∈ Gate.standard, g.name ∉ Gate.productFamilies := by decide

variable {op : Operation}

theorem headName_of_mem_standard (h : op.gate ∈ Gate.standard) : op.headName = op.gate.name := by
  rw [headName, Gate.bases?_of_mem_standard h]
  rfl

theorem headName_product {family : String} {bases : List Pauli}
    (hfamily : family ∈ Gate.productFamilies) (h : op.gate = .product family bases) :
    op.headName = family := by
  rw [headName, h, Gate.bases?_product hfamily, Gate.family_product hfamily]
  rfl

/-- An operation or marker whose heading tells whether it is written as such. -/
structure Told (op : Operation) : Prop where
  plain : Plain op.headName
  written : IsWritten op ↔ op.headName ≠ detectorName ∧ op.headName ≠ observableName

theorem isWritten_product {family : String} {bases : List Pauli}
    (h : op.gate = .product family bases) : IsWritten op := by
  have hcolon := Gate.colon_mem_product_name family bases
  rw [← h] at hcolon
  exact ⟨Gate.name_ne_of_colon hcolon (by decide), Gate.name_ne_of_colon hcolon (by decide)⟩

theorem told_of_known (h : Context.standard.Knows op.gate) : Told op := by
  rcases h.cases with hmem | ⟨family, hfamily, bases, -, hgate⟩
  · exact ⟨headName_of_mem_standard hmem ▸ plain_standard _ hmem,
      by rw [IsWritten, headName_of_mem_standard hmem]⟩
  · have hhead := headName_product hfamily hgate
    obtain ⟨hplain, hdetector, hobservable⟩ := plain_families family hfamily
    exact ⟨hhead ▸ hplain,
      iff_of_true (isWritten_product hgate) (hhead ▸ ⟨hdetector, hobservable⟩)⟩

theorem told_of_name (h : op.gate.name = detectorName ∨ op.gate.name = observableName) :
    Told op := by
  have hbases : op.gate.bases? = none := by
    rcases h with h | h
    all_goals
      rw [Gate.bases?, h]
      rfl
  have hhead : op.headName = op.gate.name := by
    rw [Operation.headName, hbases]
    rfl
  refine ⟨?_, by rw [IsWritten, hhead]⟩
  rcases h with h | h
  all_goals
    rw [hhead, h]
    decide

/-- Whether an operation is written as such can be told from its heading. -/
theorem Told.isWritten_congr {a b : Operation} (ha : Told a) (hb : Told b)
    (h : a.heading = b.heading) : IsWritten a ↔ IsWritten b := by
  rw [ha.written, hb.written, headName_of_heading ha.plain hb.plain h]

theorem ops_groupLines (heading : String) {ops : List Operation}
    (h : ∀ a ∈ ops, ∀ b ∈ ops, IsWritten a ↔ IsWritten b) :
    (groupLines heading ops).flatMap Line.ops = ops.filter fun op => IsWritten op := by
  cases ops with
  | nil => rfl
  | cons op rest =>
      have hsame : ∀ a ∈ op :: rest, IsWritten a ↔ IsWritten op := fun a ha =>
        h a ha op List.mem_cons_self
      by_cases hwritten : IsWritten op
      · have hall : (op :: rest).filter (fun op => IsWritten op) = op :: rest :=
          List.filter_eq_self.2 fun a ha => decide_eq_true ((hsame a ha).2 hwritten)
        rw [hall, groupLines, if_neg (not_or.2 hwritten)]
        split_ifs
        · simp [Line.ops]
        · simp [Line.ops]
        · simp [Line.ops, List.flatMap_map]
      · have hnone : (op :: rest).filter (fun op => IsWritten op) = [] :=
          List.filter_eq_nil_iff.2 fun a ha => by simp [hsame a ha, hwritten]
        rw [hnone, groupLines, if_pos (by rwa [IsWritten, ← not_or, not_not] at hwritten)]
        rfl

theorem ops_overlayLines (o : Overlay) : (overlayLines o).flatMap Line.ops = [] := by
  cases o <;> rfl

/-- What is written of a layer, in the order in which it is written. -/
def writtenOf (l : Layer) : List Operation :=
  Layer.grouped l.operations.toList ++
    (Layer.grouped l.markers.toList).filter fun op => IsWritten op

/-- A layer whose headings tell what is written of it: all of its operations, and those of its markers
that do not belong to detectors or observables. -/
structure Tells (l : Layer) : Prop where
  filed : l.Filed
  told : ∀ op ∈ l.operationsAndMarkers, Told op
  acting : ∀ op ∈ l.operations.toList, IsWritten op

theorem ops_groups {ops : List Operation} (h : ∀ op ∈ ops, Told op) :
    ((Layer.groupByHeading ops).flatMap fun group => groupLines group.1 group.2).flatMap Line.ops =
      (Layer.grouped ops).filter fun op => IsWritten op := by
  rw [List.flatMap_assoc, Layer.grouped_eq, Layer.groupByHeading_eq, List.flatMap_map,
    List.filter_flatMap]
  refine List.flatMap_congr fun heading _ => ops_groupLines heading fun a ha b hb => ?_
  obtain ⟨ha, hheading⟩ := List.mem_filter.1 ha
  obtain ⟨hb, hheading'⟩ := List.mem_filter.1 hb
  exact (h a ha).isWritten_congr (h b hb)
    ((beq_iff_eq.1 hheading).trans (beq_iff_eq.1 hheading').symm)

variable {l : Layer}

theorem ops_layerLines (d : Detail) (h : Tells l) :
    (layerLines d l).flatMap Line.ops = writtenOf l := by
  have hoverlays : (if d = .annotated then l.overlays.toList.flatMap overlayLines else []).flatMap
      Line.ops = [] := by
    split_ifs
    · rw [List.flatMap_assoc]
      exact List.flatMap_eq_nil_iff.2 fun o _ => ops_overlayLines o
    · rfl
  have htold := fun op hop => h.told op (List.mem_append_left _ hop)
  have hmarked := fun op hop => h.told op (List.mem_append_right _ hop)
  rw [layerLines, List.flatMap_append, hoverlays, List.nil_append, Layer.groups_eq h.filed,
    List.flatMap_append, List.flatMap_append, ops_groups htold, ops_groups hmarked, writtenOf,
    List.filter_eq_self.2]
  intro op hop
  exact decide_eq_true (h.acting op ((Layer.grouped_perm _).mem_iff.1 hop))

/-- A line of a group holds operations of the group. -/
theorem groupLines_cases {heading : String} {ops : List Operation} {line : Line}
    (h : line ∈ groupLines heading ops) : ∃ held, held ≠ [] ∧ held ⊆ ops ∧
      (line = .operations heading held ∨ line = .products heading held) := by
  cases ops with
  | nil => cases h
  | cons first rest =>
      have hall : first :: rest ≠ [] := List.cons_ne_nil _ _
      rw [groupLines] at h
      split_ifs at h
      · cases h
      · exact ⟨_, hall, List.Subset.refl _, .inr (List.mem_singleton.1 h)⟩
      · exact ⟨_, hall, List.Subset.refl _, .inl (List.mem_singleton.1 h)⟩
      · obtain ⟨op, hop, rfl⟩ := List.mem_map.1 h
        exact ⟨[op], List.cons_ne_nil _ _, List.cons_subset.2 ⟨hop, List.nil_subset _⟩, .inl rfl⟩

theorem mem_groups {group : String × List Operation} (h : group ∈ l.groups) {op : Operation}
    (hop : op ∈ group.2) : op ∈ l.operationsAndMarkers ∧ op.heading = group.1 := by
  have hgroup {ops : List Operation} (h : group ∈ Layer.groupByHeading ops) :
      op ∈ ops ∧ op.heading = group.1 := by
    rw [Layer.groupByHeading_eq] at h
    obtain ⟨heading, -, rfl⟩ := List.mem_map.1 h
    obtain ⟨hmem, hheading⟩ := List.mem_filter.1 hop
    exact ⟨hmem, beq_iff_eq.1 hheading⟩
  rcases List.mem_append.1 h with h | h
  · exact (hgroup h).imp_left List.mem_of_mem_filter
  · exact (hgroup h).imp_left List.mem_of_mem_filter

/-- What is written of a layer: its polygons, and its operations and markers under their headings. -/
theorem layerLines_cases {d : Detail} {line : Line} (h : line ∈ layerLines d l) :
    (∃ p, .polygon p ∈ l.overlays.toList ∧
      (line = .polygonHeader p.sheet p.stroke p.fill ∨ line = .polygonBody p.colour p.corners)) ∨
    ∃ heading ops, ops ≠ [] ∧ (∀ op ∈ ops, op ∈ l.operationsAndMarkers ∧ op.heading = heading) ∧
      (line = .operations heading ops ∨ line = .products heading ops) := by
  rcases List.mem_append.1 h with h | h
  · split_ifs at h
    · obtain ⟨o, ho, h⟩ := List.mem_flatMap.1 h
      cases o with
      | polygon p => exact .inl ⟨p, ho, List.mem_pair.1 h⟩
      | _ => cases h
    · cases h
  · obtain ⟨group, hgroup, h⟩ := List.mem_flatMap.1 h
    obtain ⟨held, hne, hsubset, hline⟩ := groupLines_cases h
    exact .inr ⟨group.1, held, hne, fun op hop => mem_groups hgroup (hsubset hop), hline⟩

/-- A line that belongs to a layer: a polygon or operations. -/
def Line.OfLayer : Line → Prop
  | .polygonHeader .. => True
  | .polygonBody .. => True
  | .operations .. => True
  | .products .. => True
  | _ => False

theorem ofLayer_layerLines {d : Detail} {line : Line} (h : line ∈ layerLines d l) :
    line.OfLayer := by
  obtain ⟨p, -, rfl | rfl⟩ | ⟨heading, ops, -, -, rfl | rfl⟩ := layerLines_cases h <;> trivial

theorem tick_notMem_layerLines (d : Detail) (l : Layer) : Line.tick ∉ layerLines d l :=
  fun h => ofLayer_layerLines h

/-- The layer behind a line. -/
def Line.next (k : Nat) : Line → Nat
  | .tick => k + 1
  | _ => k

theorem next_of_ne_tick {l : Line} (h : l ≠ .tick) (k : Nat) : l.next k = k := by
  cases l with
  | tick => exact absurd rfl h
  | _ => rfl

/-- The operations on lines, each with its layer: the lines stand behind `k` ticks. -/
def written (k : Nat) : List Line → List (Nat × Operation)
  | [] => []
  | l :: ls => l.ops.map (k, ·) ++ written (l.next k) ls

/-- Lines without ticks belong to one layer. -/
theorem written_append {ls : List Line} (h : .tick ∉ ls) (k : Nat) (rest : List Line) :
    written k (ls ++ rest) = (ls.flatMap Line.ops).map (k, ·) ++ written k rest := by
  induction ls with
  | nil => rfl
  | cons l ls ih =>
      obtain ⟨hl, hls⟩ := not_or.1 (mt List.mem_cons.2 h)
      rw [List.cons_append, written, next_of_ne_tick (Ne.symm hl), ih hls, List.flatMap_cons, List.map_append,
        List.append_assoc]

/-- Ticks at the end are of no account. -/
theorem written_ticks (k : Nat) (ls : List Line) (n : Nat) :
    written k (ls ++ List.replicate n .tick) = written k ls := by
  induction ls generalizing k with
  | nil =>
      induction n generalizing k with
      | zero => rfl
      | succ n ih => exact ih (k + 1)
  | cons l ls ih => rw [List.cons_append, written, ih, written]

/-- The lines without the ticks at the end. -/
theorem exists_ticks (c : Circuit) (d : Detail) :
    ∃ n, headerLines c d ++ bodyLines c d (.ofCircuit c) c.layers =
      lines c d ++ List.replicate n .tick := by
  have hall : ∀ all : List Line, ∃ n,
      all = (all.reverse.dropWhile (· == .tick)).reverse ++ List.replicate n .tick := by
    intro all
    have hticks : all.reverse.takeWhile (· == .tick) =
        List.replicate (all.reverse.takeWhile (· == .tick)).length .tick :=
      List.eq_replicate_iff.2 ⟨rfl, fun l hl =>
        beq_iff_eq.1 (List.mem_takeWhile_imp (p := (· == Line.tick)) hl)⟩
    refine ⟨(all.reverse.takeWhile (· == .tick)).length, ?_⟩
    rw [← List.reverse_replicate, ← hticks, ← List.reverse_append,
      List.takeWhile_append_dropWhile, List.reverse_reverse]
  exact hall _

/-- Lines that carry no operations and no ticks. -/
def Silent (ls : List Line) : Prop := ∀ l ∈ ls, l.ops = [] ∧ l ≠ .tick

theorem written_silent {ls : List Line} (h : Silent ls) (k : Nat) (rest : List Line) :
    written k (ls ++ rest) = written k rest := by
  rw [written_append fun hmem => (h _ hmem).2 rfl,
    List.flatMap_eq_nil_iff.2 fun l hl => (h l hl).1]
  rfl

/-- What stands in front of the layers: sheets, unless they go without saying, and coordinates. -/
theorem headerLines_cases {c : Circuit} {d : Detail} {line : Line} (h : line ∈ headerLines c d) :
    (d = .annotated ∧ ∃ s ∈ c.sheets, line = .sheet s.name s.z) ∨
      ∃ q ∈ numbered c d, line = .coordinates (c.coordsOf q) q := by
  rcases List.mem_append.1 h with h | h
  · split_ifs at h with hd
    · obtain ⟨s, hs, rfl⟩ := List.mem_map.1 h
      exact .inl ⟨hd, s, List.mem_of_mem_filter hs, rfl⟩
    · cases h
  · obtain ⟨q, hq, rfl⟩ := List.mem_map.1 h
    exact .inr ⟨q, hq, rfl⟩

theorem silent_headerLines (c : Circuit) (d : Detail) : Silent (headerLines c d) := by
  intro l hl
  obtain ⟨-, s, -, rfl⟩ | ⟨q, -, rfl⟩ := headerLines_cases hl
  · exact ⟨rfl, Line.noConfusion⟩
  · exact ⟨rfl, Line.noConfusion⟩

/-- A line that refers to the record: a detector or an observable. -/
def Line.Refers : Line → Prop
  | .detector .. => True
  | .observable .. => True
  | _ => False

theorem Line.Refers.silent {l : Line} (h : l.Refers) : l.ops = [] ∧ l ≠ .tick := by
  cases l with
  | detector => exact ⟨rfl, Line.noConfusion⟩
  | observable => exact ⟨rfl, Line.noConfusion⟩
  | _ => exact h.elim

theorem eq_detector_of_labelDetectors {c : Circuit} {time : Nat} {p : Pending} {ds : List Detector}
    {line : Line} (h : line ∈ (p.labelDetectors c time ds).1) :
    ∃ label offsets, line = .detector label offsets := by
  induction ds generalizing p with
  | nil => cases h
  | cons d rest ih =>
      rcases List.mem_cons.1 h with rfl | h
      · exact ⟨_, _, rfl⟩
      · exact ih h

theorem refers_writeDetectors (c : Circuit) (p : Pending) : ∀ l ∈ (p.writeDetectors c).1, l.Refers := by
  intro l hl
  obtain ⟨label, offsets, rfl⟩ := eq_detector_of_labelDetectors hl
  trivial

theorem refers_writeObservables (p : Pending) : ∀ l ∈ p.writeObservables.1, l.Refers := by
  intro l hl
  obtain ⟨entry, -, rfl⟩ := List.mem_map.1 hl
  trivial

theorem silent_writeDetectors (c : Circuit) (p : Pending) : Silent (p.writeDetectors c).1 :=
  fun l hl => (refers_writeDetectors c p l hl).silent

theorem silent_writeObservables (p : Pending) : Silent p.writeObservables.1 :=
  fun l hl => (refers_writeObservables p l hl).silent

theorem bodyLines_cons (c : Circuit) (d : Detail) (p : Pending) (l : Layer) (rest : List Layer) :
    bodyLines c d p (l :: rest) =
      layerLines d l ++ (((p.advance l).writeDetectors c).1 ++
        (((p.advance l).writeDetectors c).2.writeObservables.1 ++
          .tick :: bodyLines c d ((p.advance l).writeDetectors c).2.writeObservables.2 rest)) := by
  rw [bodyLines, ← List.append_assoc, ← List.append_assoc]

/-- Only labels and times are changed by labelling. -/
theorem Pending.labelDetectors_keeps (c : Circuit) (time : Nat) (p : Pending) (ds : List Detector) :
    (p.labelDetectors c time ds).2.measurements = p.measurements ∧
      (p.labelDetectors c time ds).2.detectors = p.detectors ∧
        (p.labelDetectors c time ds).2.observables = p.observables := by
  induction ds generalizing p with
  | nil => exact ⟨rfl, rfl, rfl⟩
  | cons d rest ih => exact ih _

/-- Where the lines behind the header come from. -/
theorem bodyLines_origin {c : Circuit} {d : Detail} {line : Line} {layers : List Layer}
    {p : Pending} (h : line ∈ bodyLines c d p layers) :
    (∃ q : Pending, line ∈ (q.writeDetectors c).1) ∨
      (∃ q : Pending, q.observables ⊆ p.observables ∧ line ∈ q.writeObservables.1) ∨
        line = .tick ∨ ∃ l ∈ layers, line ∈ layerLines d l := by
  induction layers generalizing p with
  | nil => cases h
  | cons l rest ih =>
      have hkept : ((p.advance l).writeDetectors c).2.observables = p.observables :=
        (Pending.labelDetectors_keeps ..).2.2
      rw [bodyLines_cons] at h
      rcases List.mem_append.1 h with h | h
      · exact .inr (.inr (.inr ⟨l, List.mem_cons_self, h⟩))
      rcases List.mem_append.1 h with h | h
      · exact .inl ⟨_, h⟩
      rcases List.mem_append.1 h with h | h
      · exact .inr (.inl ⟨_, hkept ▸ List.Subset.refl _, h⟩)
      rcases List.mem_cons.1 h with rfl | h
      · exact .inr (.inr (.inl rfl))
      · refine (ih h).imp_right (.imp (fun ⟨q, hq, h⟩ => ⟨q, ?_, h⟩) (.imp_right fun ⟨l', hl', h⟩ =>
          ⟨l', List.mem_cons_of_mem l hl', h⟩))
        exact hkept ▸ List.Subset.trans hq (List.filter_subset_self _)

/-- What the lines behind the header are. -/
theorem bodyLines_cases {c : Circuit} {d : Detail} {line : Line} {layers : List Layer}
    {p : Pending} (h : line ∈ bodyLines c d p layers) :
    line.Refers ∨ line = .tick ∨ ∃ l ∈ layers, line ∈ layerLines d l := by
  rcases bodyLines_origin h with ⟨q, h⟩ | ⟨q, -, h⟩ | h
  · exact .inl (refers_writeDetectors c q line h)
  · exact .inl (refers_writeObservables q line h)
  · exact .inr h

theorem mem_lines {c : Circuit} {d : Detail} {line : Line} (h : line ∈ lines c d) :
    line ∈ headerLines c d ∨ line ∈ bodyLines c d (.ofCircuit c) c.layers := by
  obtain ⟨n, hn⟩ := exists_ticks c d
  rw [← List.mem_append, hn]
  exact List.mem_append_left _ h

/-- A line of operations is a line of some layer. -/
theorem exists_layer_of_ops {c : Circuit} {d : Detail} {line : Line} (h : line ∈ lines c d)
    (hops : line.ops ≠ []) : ∃ l ∈ c.layers, line ∈ layerLines d l := by
  rcases mem_lines h with hmem | hmem
  · exact absurd (silent_headerLines c d line hmem).1 hops
  · rcases bodyLines_cases hmem with hrefers | rfl | hlayer
    · exact absurd hrefers.silent.1 hops
    · exact absurd rfl hops
    · exact hlayer

/-- The heading of a line of operations. -/
def Line.heading? : Line → Option String
  | .operations heading _ => some heading
  | .products heading _ => some heading
  | _ => none

/-- Every operation that is written is in a layer, and stands under its own heading. -/
theorem mem_lines_of_operation {c : Circuit} {d : Detail} {line : Line} (h : line ∈ lines c d)
    {op : Operation} (hop : op ∈ line.ops) :
    (∃ l ∈ c.layers, op ∈ l.operationsAndMarkers) ∧ line.heading? = some op.heading := by
  obtain ⟨l, hl, hmem⟩ := exists_layer_of_ops h (List.ne_nil_of_mem hop)
  obtain ⟨p, -, rfl | rfl⟩ | ⟨heading, ops, -, hops, rfl | rfl⟩ := layerLines_cases hmem
  · cases hop
  · cases hop
  all_goals
    obtain ⟨hmem, hheading⟩ := hops op hop
    exact ⟨⟨l, hl, hmem⟩, congrArg some hheading.symm⟩

theorem written_bodyLines (c : Circuit) (d : Detail) {layers : List Layer}
    (h : ∀ l ∈ layers, Tells l) (p : Pending) (k : Nat) :
    written k (bodyLines c d p layers) =
      (layers.zipIdx k).flatMap fun e => (writtenOf e.1).map (e.2, ·) := by
  induction layers generalizing p k with
  | nil => rfl
  | cons l rest ih =>
      obtain ⟨hl, hrest⟩ := List.forall_mem_cons.1 h
      rw [bodyLines_cons, written_append (tick_notMem_layerLines d l), ops_layerLines d hl,
        written_silent (silent_writeDetectors c _),
        written_silent (silent_writeObservables _), List.zipIdx_cons, List.flatMap_cons, written,
        ih hrest]
      rfl

/-- Layer by layer, everything is written exactly once. -/
theorem written_lines {c : Circuit} (h : ∀ l ∈ c.layers, Tells l) (d : Detail) :
    written 0 (lines c d) =
      c.layers.zipIdx.flatMap fun e => (writtenOf e.1).map (e.2, ·) := by
  obtain ⟨n, hn⟩ := exists_ticks c d
  rw [← written_ticks 0 (lines c d) n, ← hn, written_silent (silent_headerLines c d),
    written_bodyLines c d h]

end Emission

namespace Build

open Emission

theorem tells_parse {text : String} {l : Layer} (hl : l ∈ (parse text).circuit.layers) :
    Tells l where
  filed := filed_parse hl
  told op hop := by
    by_cases hwritten : IsWritten op
    · exact told_of_known (wellBuilt_of_isWritten hl hop hwritten).known
    · refine told_of_name ?_
      rwa [IsWritten, ← not_or, not_not] at hwritten
  acting op hop := by
    rcases ((sound_parse text hl).placeable op hop).known.cases with hmem | hproduct
    · exact acting_standard _ hmem ((sound_parse text hl).placeable op hop).acting
    · obtain ⟨family, -, bases, -, hgate⟩ := hproduct
      exact isWritten_product hgate

theorem written_parse (text : String) (d : Detail) :
    written 0 (lines (parse text).circuit d) =
      (parse text).circuit.layers.zipIdx.flatMap fun e => (writtenOf e.1).map (e.2, ·) :=
  written_lines (fun _ hl => tells_parse hl) d

end Build

end StimOverlay
