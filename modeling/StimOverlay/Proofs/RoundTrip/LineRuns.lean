import StimOverlay.Proofs.Circuit.CompletedCoordinates
import StimOverlay.Proofs.Directive.WrittenDirectives

/-! Running written lines. A line that has what it needs is run without any diagnostic. The moves of the run
are those that the line stands for; and what it declares or draws shows in the state, whatever the
circuit is otherwise. -/

namespace StimOverlay

open Build Numeric

namespace Emission

/-- What a line needs to be built behind `k` measurements. -/
def Line.Sound (n : Numbering) (k : Nat) : Line → Prop
  | .coordinates place q => place.x.isFinite ∧ place.y.isFinite ∧ n.number q ≤ maxQubitId
  | .operations name ops => (∃ g ∈ Gate.standard, g.name = name ∧ g.name ≠ detectorName ∧
      g.name ≠ observableName ∧ ∀ op ∈ ops, Writable n op ∧ op.gate = g) ∧ ops ≠ [] ∧
      ∀ op ∈ ops, ∀ q ∈ op.targets, n.number q ≤ maxQubitId
  | .products family ops => (family ∈ Gate.productFamilies ∧ ∀ op ∈ ops, Writable n op ∧
      ∃ bases, bases ≠ [] ∧ op.gate = .product family bases) ∧ ops ≠ [] ∧
      ∀ op ∈ ops, ∀ q ∈ op.targets, n.number q ≤ maxQubitId
  | .detector label offsets => (∃ place : Point, place.x.isFinite ∧ place.y.isFinite ∧
      label.place = place.text) ∧ label.time ≤ 2 ^ 64 ∧ offsets ≠ [] ∧
      ∀ o ∈ offsets, o < 0 ∧ 0 ≤ (k : Int) + o
  | .observable index offsets => index < 2 ^ 53 ∧ offsets ≠ [] ∧
      ∀ o ∈ offsets, o < 0 ∧ 0 ≤ (k : Int) + o
  | .tick => True
  | .sheet name z => Directive.IsValue name ∧ leastZ ≤ z ∧ z ≤ greatestZ
  | .polygonHeader name stroke fill => IsStyle name stroke fill
  | .polygonBody colour corners => (∀ v ∈ colour.components, v.isFinite ∧ v.ReadsBack) ∧
      corners ≠ [] ∧ ∀ q ∈ corners, n.number q ≤ maxQubitId

theorem referable_of_range {k : Nat} (hk : k ≤ Lexeme.offsetBound) {offsets : List Int}
    (hne : offsets ≠ []) (h : ∀ o ∈ offsets, o < 0 ∧ 0 ≤ (k : Int) + o) : Referable offsets :=
  ⟨hne, fun o ho => ⟨(h o ho).1, by have := (h o ho).2; omega⟩⟩

theorem Line.Sound.legible {n : Numbering} {k : Nat} (hk : k ≤ Lexeme.offsetBound) {l : Line}
    (h : l.Sound n k) (hl : l.IsInstruction) : l.Legible n := by
  cases l with
  | coordinates place q => exact h
  | operations name ops =>
      obtain ⟨⟨g, hg, hname, -, -, hops⟩, hne, hnumbers⟩ := h
      refine ⟨⟨g, hg, hname⟩, fun hnil => ?_, hnumbers⟩
      obtain ⟨op, rest, rfl⟩ := List.exists_cons_of_ne_nil hne
      have htargets := List.flatMap_eq_nil_iff.1 hnil op List.mem_cons_self
      exact (hops op List.mem_cons_self).1.built.targets_ne_nil htargets
  | products family ops =>
      obtain ⟨⟨hfamily, hops⟩, hne, hnumbers⟩ := h
      exact ⟨hfamily, hne, fun op hop =>
        ⟨(hops op hop).2, (hops op hop).1.built.targets_ne_nil, hnumbers op hop⟩⟩
  | detector label offsets =>
      obtain ⟨hplace, htime, hne, hrange⟩ := h
      exact ⟨hplace, htime, referable_of_range hk hne hrange⟩
  | observable index offsets =>
      obtain ⟨hindex, hne, hrange⟩ := h
      exact ⟨hindex, referable_of_range hk hne hrange⟩
  | tick => trivial
  | polygonBody colour corners => exact h
  | sheet name z => exact hl.elim
  | polygonHeader sheet stroke fill => exact hl.elim

/-- The operations on a line. -/
def Line.ops : Line → List Operation
  | .operations _ ops => ops
  | .products _ ops => ops
  | _ => []

/-- How many measurements a line adds to the record. -/
def Line.measurements (l : Line) : Nat := l.ops.countP Operation.isMeasurement

/-- The moves that a line stands for, behind `k` measurements and with the given number. -/
def Line.moves (n : Numbering) (k number : Nat) : Line → List Move
  | .detector _ offsets => [.detector "" number (numbersOf k offsets)]
  | .observable index offsets =>
      [.observable (.ofNat .binary64 index) "" number (numbersOf k offsets)]
  | .tick => [.tick]
  | l => l.ops.map fun op => .place (renumber n number op)

variable {n : Numbering} {k : Nat} {l : Line}

theorem detector_ne_observable : detectorName ≠ observableName := by decide

theorem multiplied_of_sound {family : String} {ops : List Operation}
    {bases : Operation → List Pauli}
    (hops : ∀ op ∈ ops, Writable n op ∧ ∃ bases, bases ≠ [] ∧ op.gate = .product family bases)
    (hbases : ∀ op ∈ ops, op.gate = .product family (bases op)) :
    Multiplied n family bases ops := by
  intro op hop
  obtain ⟨hwritable, bases', hne, hgate⟩ := hops op hop
  have hlength : (bases op).length = bases'.length :=
    congrArg Gate.arity ((hbases op hop).symm.trans hgate)
  exact ⟨hwritable, hbases op hop, fun hnil => hne (List.length_eq_zero_iff.1 (by simp [← hlength, hnil]))⟩

/-- A directive makes no moves. -/
theorem moves_of_directive {text : List Char} (htrim : Text.trim text = text)
    (hdirective : Source.isDirective text) (number : Nat) :
    (Act.line number text).moves .standard k = [] := by
  refine moves_of_none ?_ .standard k
  rw [Act.instruction?]
  simp [htrim, hdirective]

theorem moves_of_sound (hk : k ≤ Lexeme.offsetBound) (h : l.Sound n k) (number : Nat) :
    (Act.line number (l.normal n)).moves .standard k = l.moves n k number := by
  by_cases hl : l.IsInstruction
  · obtain ⟨i, hmeans, hreadable⟩ := readable_of_legible (h.legible hk hl)
    rw [moves_of_instruction (instruction?_of_readable hreadable)]
    cases hmeans with
    | coordinates place q => exact instructionMoves_coordinates rfl
    | operations name ops =>
        obtain ⟨⟨g, hg, rfl, hdetector, hobservable, hops⟩, -⟩ := h
        exact instructionMoves_gateInstruction hg ⟨hdetector, hobservable⟩ hops k number
    | products family ops bases hbases =>
        obtain ⟨⟨hfamily, hops⟩, -⟩ := h
        exact instructionMoves_productInstruction hfamily (multiplied_of_sound hops hbases) k number
    | detector label offsets args => exact instructionMoves_detector h.2.2.2 number
    | observable index offsets =>
        obtain ⟨hfinite, hvalue⟩ := Binary.toRat_ofNat Format.ample_binary64 h.1
        exact instructionMoves_observable h.2.2 hfinite hvalue number
    | tick => exact if_pos rfl
    | polygonBody colour corners args hargs =>
        have htick : polygonName ≠ tickName := by decide
        rw [instructionMoves, if_neg htick, if_pos (.inr rfl)]
        rfl
  · cases l with
    | sheet name z =>
        rw [normal_sheet h.1]
        exact moves_of_directive (Directive.trim_line (by simp [sheetPairs]) (assignable_sheet h.1))
          (Directive.isDirective_line _ _) number
    | polygonHeader sheet stroke fill =>
        rw [normal_header h]
        exact moves_of_directive (Directive.trim_line (List.cons_ne_nil _ _) (assignable_header h))
          (Directive.isDirective_line _ _) number
    | _ => exact absurd trivial hl

/-- The sheets of a circuit, without what is drawn on them. -/
def sheetsOf (c : Circuit) : List (String × Int) := c.sheets.map fun sheet => (sheet.name, sheet.z)

/-- What lines have declared and drawn so far, and the header that waits for its polygon. -/
structure Page where
  coords : Std.TreeMap QubitId Point := ∅
  sheets : List (String × Int) := [(defaultSheet, 0)]
  /-- Whether it is too late to declare a sheet. -/
  begun : Bool := false
  layer : Nat := 0
  header : Option PolygonStyle := none
  /-- The figures drawn, each with its layer. -/
  figures : List (Nat × Figure) := []

/-- The page behind one more line. -/
def Line.turn (n : Numbering) (p : Page) : Line → Page
  | .sheet name z => { p with sheets := p.sheets ++ [(name, z)] }
  | .coordinates place q =>
      { p with begun := true, coords := p.coords.insert (n.number q) place.place }
  | .polygonHeader name stroke fill => { p with header := some ⟨name, stroke, fill⟩ }
  | .polygonBody colour corners =>
      { p with
        begun := true
        header := none
        figures := p.figures ++ (p.header.map fun style =>
          (p.layer, Figure.renumber n ⟨style, ⟨colour, corners⟩⟩)).toList }
  | .tick => { p with begun := true, layer := p.layer + 1 }
  | _ => { p with begun := true }

/-- Whether a line may follow on a page: sheets come first and have new names, a place is declared for
one qubit, and a header stands in front of every polygon and of nothing else. -/
def Line.Follows (p : Page) : Line → Prop
  | .sheet name _ => p.header = none ∧ p.begun = false ∧ p.layer = 0 ∧ name ∉ p.sheets.map (·.1)
  | .coordinates place _ =>
      p.header = none ∧ ({ coords := p.coords } : Circuit).qubitAt? place.place = none
  | .polygonHeader name _ _ => p.header = none ∧ name ∈ p.sheets.map (·.1)
  | .polygonBody .. => p.header.isSome
  | _ => p.header = none

/-- The directive that waits is the header of a polygon in the given style, if there is one. -/
def Awaits : Option PolygonStyle → Anchor → Prop
  | none, anchor => anchor = .free
  | some style, anchor => ∃ line, anchor = .polygon line style

/-- A state that shows what is on a page. -/
structure Shows (p : Page) (s : State) : Prop where
  diagnostics : s.diagnostics = #[]
  anchor : Awaits p.header s.anchor
  contentSeen : s.contentSeen = p.begun
  coords : s.circuit.coords = p.coords
  sheets : sheetsOf s.circuit = p.sheets
  figures : ∀ j, (s.circuit.schedule.overlaysAt j).filterMap figure? =
    (p.figures.filter (·.1 == j)).map (·.2)
  /-- Behind the first layer, nothing else is drawn. -/
  drawn : ∀ j, 0 < j → ∀ o ∈ s.circuit.schedule.overlaysAt j, (figure? o).isSome

variable {p : Page} {s t : State}

theorem shows_start : Shows {} {} where
  diagnostics := rfl
  anchor := rfl
  contentSeen := rfl
  coords := rfl
  sheets := rfl
  figures j := by cases j <;> rfl
  drawn j hj o ho := by
    cases j with
    | zero => cases hj
    | succ j => cases ho

theorem Shows.free (h : Shows p s) (hheader : p.header = none) : s.anchor = .free := by
  have hanchor := h.anchor
  rwa [hheader] at hanchor

/-- A quiet instruction leaves the page as it is. -/
theorem Shows.quiet (h : Shows p s) (hquiet : Quiet { s with contentSeen := true } t) :
    Shows { p with begun := true } t where
  diagnostics := hquiet.diagnostics.trans h.diagnostics
  anchor := hquiet.anchor ▸ h.anchor
  contentSeen := hquiet.contentSeen
  coords := hquiet.coords.trans h.coords
  sheets := (congrArg _ hquiet.sheets).trans h.sheets
  figures j := (congrArg _ (hquiet.overlays j)).trans (h.figures j)
  drawn j hj o ho := h.drawn j hj o ((hquiet.overlays j) ▸ ho)

theorem Shows.hasSheet (h : Shows p s) {name : String} :
    s.circuit.HasSheet name ↔ name ∈ p.sheets.map (·.1) := by
  rw [← h.sheets, sheetsOf, List.map_map]
  rfl

/-- A sheet is declared, and drawn on the first layer. -/
theorem Shows.sheet (h : Shows p s) (hlayer : s.layer = 0) (number : Nat) (name : String) (z : Int) :
    Shows ((Line.sheet name z).turn n p)
      (State.draw { s with circuit := s.circuit.addSheet { name, z } } (.sheet number name z)) where
  diagnostics := h.diagnostics
  anchor := h.anchor
  contentSeen := h.contentSeen
  coords := h.coords
  sheets := by
    rw [Line.turn, ← h.sheets]
    exact List.map_append
  figures j := by
    have hdraw := s.circuit.schedule.overlaysAt_draw (.sheet number name z) j
    refine (congrArg _ hdraw).trans ?_
    rw [List.filterMap_append, h.figures]
    split_ifs
    · exact List.append_nil _
    · exact List.append_nil _
  drawn j hj o ho := by
    have hdraw := s.circuit.schedule.overlaysAt_draw (.sheet number name z) j
    rw [if_neg (show s.circuit.schedule.position ≠ j from fun heq =>
      hj.ne (hlayer.symm.trans heq)), List.append_nil] at hdraw
    exact h.drawn j hj o (hdraw ▸ ho)

/-- A polygon is drawn in the style of the header that waits for it. -/
theorem Shows.polygon (h : Shows p s) (hlayer : s.layer = p.layer) {style : PolygonStyle}
    (hheader : p.header = some style) (start number : Nat) (colour : Colour)
    (corners : List QubitId) :
    Shows ((Line.polygonBody colour corners).turn n p)
      (State.drawPolygon { s with contentSeen := true, anchor := .free } start number false style
        ⟨colour, corners.map n.number⟩) where
  diagnostics := h.diagnostics
  anchor := rfl
  contentSeen := rfl
  coords := h.coords
  sheets := h.sheets
  figures j := by
    refine (congrArg _ (s.circuit.schedule.overlaysAt_draw _ j)).trans ?_
    rw [List.filterMap_append, h.figures, show s.circuit.schedule.position = p.layer from hlayer,
      Line.turn, hheader]
    dsimp only [Option.map_some, Option.toList_some]
    rw [List.filter_append, List.map_append]
    congr 1
    by_cases hj : p.layer = j
    · simp [hj, figure?, Figure.renumber]
    · simp [hj]
  drawn j hj o ho := by
    have hdraw := s.circuit.schedule.overlaysAt_draw (.polygon ⟨start, number, false, style.sheet,
      style.stroke, style.fill, colour, corners.map n.number⟩) j
    rcases List.mem_append.1 (hdraw ▸ ho) with ho | ho
    · exact h.drawn j hj o ho
    · split_ifs at ho
      · rw [List.mem_singleton.1 ho]
        rfl
      · cases ho

/-- An instruction is built in front of which nothing waits, and it is no polygon. -/
theorem perform_of_build (hfree : s.anchor = .free) {text : List Char} {i : Instruction}
    (hreadable : Instruction.Readable text i) {number : Nat} {o : Outcome}
    (hbuild : State.build { s with contentSeen := true } .standard number text i = .ok (o, t))
    (ho : ∀ body, o ≠ .polygon body) (ht : t.anchor = s.anchor) :
    s.perform .standard (.line number text) = .ok t := by
  rw [State.perform, buildLine_of_readable hreadable]
  exact buildInstruction_of_build hbuild ho hfree (ht.trans hfree)

/-- A line that may follow is run without any diagnostic. -/
theorem perform_of_sound (hk : k ≤ Lexeme.offsetBound) (h : l.Sound n k) (hfollows : l.Follows p)
    (hs : Shows p s) (hsize : s.record.size = k) (hlayer : s.layer = p.layer) (number : Nat) :
    ∃ t, s.perform .standard (.line number (l.normal n)) = .ok t ∧ Shows (l.turn n p) t := by
  -- Lines other than declarations and drawings are quiet.
  have hquietly {i : Instruction} (hreadable : Instruction.Readable (l.normal n) i)
      (hheader : p.header = none)
      (hbuild : ∃ o t, State.build { s with contentSeen := true } .standard number (l.normal n) i =
        .ok (o, t) ∧ (∀ body, o ≠ .polygon body) ∧ Quiet { s with contentSeen := true } t) :
      ∃ t, s.perform .standard (.line number (l.normal n)) = .ok t ∧
        Shows { p with begun := true } t := by
    obtain ⟨o, t, hbuild, ho, hquiet⟩ := hbuild
    exact ⟨t, perform_of_build (hs.free hheader) hreadable hbuild ho hquiet.anchor,
      hs.quiet hquiet⟩
  have hother (body : Option PolygonBody) : Outcome.other ≠ .polygon body := Outcome.noConfusion
  have hread (hl : l.IsInstruction) := readable_of_legible (h.legible hk hl)
  cases l with
  | sheet name z =>
      obtain ⟨hheader, hbegun, hzero, hnew⟩ := hfollows
      refine ⟨_, ?_, hs.sheet (hlayer.trans hzero) number name z⟩
      rw [State.perform]
      exact buildLine_sheet h.1 h.2.1 h.2.2 (hs.free hheader) (hs.contentSeen.trans hbegun)
        (mt hs.hasSheet.1 hnew) number
  | polygonHeader sheet stroke fill =>
      obtain ⟨hheader, hsheet⟩ := hfollows
      refine ⟨{ s with anchor := .polygon number ⟨sheet, stroke, fill⟩ }, ?_,
        { hs with anchor := ⟨number, rfl⟩ }⟩
      rw [State.perform]
      exact buildLine_polygonHeader h (hs.free hheader) (hs.hasSheet.2 hsheet) number
  | polygonBody colour corners =>
      obtain ⟨style, hheader⟩ := Option.isSome_iff_exists.1 hfollows
      have hanchor := hs.anchor
      rw [hheader] at hanchor
      obtain ⟨start, hanchor⟩ := hanchor
      refine ⟨_, ?_, hs.polygon hlayer hheader start number colour corners⟩
      rw [State.perform, buildLine_polygon (isPolygon_normal h)]
      exact resolve_polygon (s := { s with contentSeen := true }) hanchor number _
  | coordinates place q =>
      obtain ⟨hheader, hvacant⟩ := hfollows
      obtain ⟨i, hmeans, hreadable⟩ := hread trivial
      cases hmeans
      rw [← hs.coords] at hvacant
      obtain ⟨t, hbuild, hcoords, hquiet⟩ := build_coordinates (q := n.number q)
        (s := { s with contentSeen := true }) hvacant number
        ((Line.coordinates place q).normal n)
      refine ⟨t, perform_of_build (hs.free hheader) hreadable hbuild (fun _ => Outcome.noConfusion)
        hquiet.anchor, { hs.quiet hquiet with coords := ?_ }⟩
      rw [hcoords, hs.coords]
      rfl
  | operations name ops =>
      obtain ⟨i, hmeans, hreadable⟩ := hread trivial
      cases hmeans
      obtain ⟨⟨g, hg, rfl, hdetector, hobservable, hops⟩, -⟩ := h
      exact hquietly hreadable hfollows
        (build_gateInstruction hg ⟨hdetector, hobservable⟩ hops number _ _)
  | products family ops =>
      obtain ⟨i, hmeans, hreadable⟩ := hread trivial
      cases hmeans with
      | products family ops bases hbases =>
          obtain ⟨⟨hfamily, hops⟩, -⟩ := h
          exact hquietly hreadable hfollows (build_productInstruction hfamily
            (multiplied_of_sound hops hbases) number _ _)
  | detector label offsets =>
      obtain ⟨i, hmeans, hreadable⟩ := hread trivial
      cases hmeans with
      | detector label offsets args =>
          obtain ⟨t, hbuild, hquiet⟩ := build_marker (s := { s with contentSeen := true })
            (i := ⟨detectorName, "", args, offsets.map .record⟩) (.inl rfl)
            (by rw [show State.record _ = s.record from rfl, hsize, recordNumbers?_records h.2.2.2]; rfl)
            (fun hname => absurd hname detector_ne_observable) number _
          exact hquietly hreadable hfollows ⟨_, t, hbuild, hother, hquiet⟩
  | observable index offsets =>
      obtain ⟨i, hmeans, hreadable⟩ := hread trivial
      cases hmeans
      obtain ⟨hfinite, hvalue⟩ := Binary.toRat_ofNat Format.ample_binary64 h.1
      obtain ⟨t, hbuild, hquiet⟩ := build_marker (s := { s with contentSeen := true })
        (i := ⟨observableName, "", [.ofNat .binary64 index], offsets.map .record⟩) (.inr rfl)
        (by rw [show State.record _ = s.record from rfl, hsize, recordNumbers?_records h.2.2]; rfl)
        (fun _ => by rw [observableIndex?_natural hfinite hvalue rfl]; rfl) number _
      exact hquietly hreadable hfollows ⟨_, t, hbuild, hother, hquiet⟩
  | tick =>
      obtain ⟨i, hmeans, hreadable⟩ := hread trivial
      cases hmeans
      obtain ⟨t, hbuild, hquiet⟩ := build_tick number ((Line.tick).normal n)
        { s with contentSeen := true }
      obtain ⟨u, hperform, hu⟩ := hquietly hreadable hfollows ⟨_, t, hbuild, hother, hquiet⟩
      exact ⟨u, hperform, { hu with }⟩

/-- Lines each of which has what it needs behind the measurements before it. -/
inductive SoundFrom (n : Numbering) : Nat → List Line → Prop where
  | nil (k : Nat) : SoundFrom n k []
  | cons {k : Nat} {l : Line} {ls : List Line} (head : l.Sound n k)
      (tail : SoundFrom n (k + l.measurements) ls) : SoundFrom n k (l :: ls)

/-- Lines each of which may follow on the page behind the lines before it. -/
inductive FollowsFrom (n : Numbering) : Page → List Line → Prop where
  | nil (p : Page) : FollowsFrom n p []
  | cons {p : Page} {l : Line} {ls : List Line} (head : l.Follows p)
      (tail : FollowsFrom n (l.turn n p) ls) : FollowsFrom n p (l :: ls)

/-- The page behind lines. -/
def pageBehind (n : Numbering) (p : Page) (ls : List Line) : Page :=
  ls.foldl (fun p l => l.turn n p) p

/-- The moves that lines stand for. -/
def movesOfLines (n : Numbering) : Nat → Nat → List Line → List Move
  | _, _, [] => []
  | k, number, l :: ls =>
      l.moves n k number ++ movesOfLines n (k + l.measurements) (number + 1) ls

variable {ls : List Line}

@[simp] theorem gate_renumber (n : Numbering) (number : Nat) (op : Operation) :
    (renumber n number op).gate = op.gate := by
  rw [renumber]
  split <;> rfl

theorem countP_moves (l : Line) (n : Numbering) (k number : Nat) :
    (l.moves n k number).countP Move.measures = l.measurements := by
  have hplace : ∀ ops : List Operation,
      (ops.map fun op => Move.place (renumber n number op)).countP Move.measures =
        ops.countP Operation.isMeasurement := by
    intro ops
    rw [List.countP_map]
    refine List.countP_congr fun op _ => ?_
    simp [Move.measures, Operation.isMeasurement]
  cases l with
  | operations name ops => exact hplace ops
  | products family ops => exact hplace ops
  | _ => rfl

/-- How many measurements are made on lines. -/
def measurementsOf (ls : List Line) : Nat := total (ls.map Line.measurements)

theorem movesFrom_lineActs {k : Nat} (h : SoundFrom n k ls)
    (hbound : k + measurementsOf ls ≤ Lexeme.offsetBound) (number : Nat) :
    movesFrom .standard k (lineActs number (ls.map (Line.normal n))) =
      movesOfLines n k number ls := by
  induction h generalizing number with
  | nil k => rfl
  | @cons k l ls head tail ih =>
      have hsum : measurementsOf (l :: ls) = l.measurements + measurementsOf ls := rfl
      have hmoves := moves_of_sound (by omega) head number
      have ih := ih (by omega) (number + 1)
      rw [lineActs] at ih ⊢
      rw [List.map_cons, List.zipIdx_cons, List.map_cons, movesFrom, hmoves, countP_moves, ih]
      rfl

theorem record_size_after (ctx : Context) (s : State) (a : Act) :
    (s.after ctx a).record.size =
      s.record.size + (a.moves ctx s.record.size).countP Move.measures := by
  have hgrounded : ∀ m ∈ a.moves ctx s.record.size, m.Grounded :=
    fun m hm => grounded_of_mem_actMoves hm
  have hsize := record_size_foldl ctx hgrounded s.tape
  rwa [← tape_after] at hsize

end Emission

end StimOverlay
