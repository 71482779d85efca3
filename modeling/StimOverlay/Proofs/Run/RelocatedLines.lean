import StimOverlay.Proofs.Circuit.PackedCoordinates
import StimOverlay.Proofs.Run.ActEdits

/-! Relocated lines. Numbers of lines are only stored and reported, never looked at; so lines with other
numbers are built in the same way. A polygon without a header is the exception: once its header has been
inserted and read, it is one with a header. -/

namespace StimOverlay

open Numeric

variable (f : Nat → Nat)

def Operation.relocate (op : Operation) : Operation := { op with line := f op.line }

/-- The overlay as it is read again, given where its line is found; a polygon knows its lines, and has a
header. -/
def Overlay.reread (o : Overlay) : Overlay :=
  match o with
  | .sheet line name z => .sheet (f line) name z
  | .connections line name droop edges => .connections (f line) name droop edges
  | .highlight line target colour qubits => .highlight (f line) target colour qubits
  | .gateHighlight line gate targets colour => .gateHighlight (f line) gate targets colour
  | .polygon p => .polygon { p with madeUpHeader := false }

/-- The overlay with new lines, a made-up header being read from the line in front of the body. -/
def Overlay.relocate (o : Overlay) : Overlay :=
  match o with
  | .polygon p => .polygon { p with
      headerLine := if p.madeUpHeader then f p.bodyLine - 1 else f p.headerLine
      bodyLine := f p.bodyLine
      madeUpHeader := false }
  | o => o.reread f

def Layer.reread (l : Layer) : Layer :=
  { l with
    operations := l.operations.map (·.relocate f)
    markers := l.markers.map (·.relocate f)
    overlays := l.overlays.map (·.reread f) }

/-- The circuit as it is read again, given where the lines of operations are found. -/
def Circuit.reread (c : Circuit) : Circuit :=
  { c with schedule := c.schedule.map (·.reread f) }

def Layer.relocate (l : Layer) : Layer :=
  { l with
    operations := l.operations.map (·.relocate f)
    markers := l.markers.map (·.relocate f)
    overlays := l.overlays.map (·.relocate f) }

def Circuit.relocate (c : Circuit) : Circuit :=
  { c with schedule := c.schedule.map (·.relocate f) }

namespace Build

def Anchor.relocate : Anchor → Anchor
  | .free => .free
  | .coordinates line data => .coordinates (f line) data
  | .gate line colour qubits => .gate (f line) colour qubits
  | .polygon line style => .polygon (f line) style

/-- The state with new lines, in which no header has been made up. -/
def State.relocate (s : State) : State :=
  { s with
    circuit := s.circuit.relocate f
    diagnostics := s.diagnostics.map fun d => { d with line := f d.line }
    anchor := s.anchor.relocate f
    headers := #[] }

/-- The outcome of a step in a relocated state, given what becomes of results. -/
def carry (g : α → α) : Step α → Step α
  | .ok a => .ok (g a)
  | .error e => .error ⟨e.state.relocate f⟩

variable {f} {g : α → α} {g' : β → β}

theorem carry_bind {x y : Step α} {k k' : α → Step β} (hx : y = carry f g x)
    (hk : ∀ a, x = .ok a → k' (g a) = carry f g' (k a)) : y >>= k' = carry f g' (x >>= k) := by
  subst hx
  cases x with
  | ok a => exact hk a rfl
  | error e => rfl

end Build

namespace Layer

variable {f} {l : Layer} {op : Operation}

theorem relocate_empty : Layer.empty.relocate f = .empty := by
  simp [relocate, empty]

theorem relocate_mark : (l.relocate f).mark (op.relocate f) = (l.mark op).relocate f := by
  simp [relocate, mark]

theorem relocate_insert : (l.relocate f).insert (op.relocate f) = (l.insert op).relocate f := by
  simp [relocate, insert, Operation.relocate]

theorem relocate_draw (o : Overlay) : (l.relocate f).draw (o.relocate f) = (l.draw o).relocate f := by
  simp [relocate, draw]

theorem blocks_relocate (q : QubitId) : (l.relocate f).blocks (op.relocate f) q = l.blocks op q := by
  have hfound : (l.relocate f).operationAt? q = (l.operationAt? q).map (·.relocate f) := by
    unfold operationAt?
    cases hclaim : l.claims[q]? with
    | none => simp [relocate, hclaim]
    | some position => simp [relocate, hclaim]
  unfold blocks
  rw [hfound]
  cases l.operationAt? q <;> rfl

theorem relocate_put : (l.relocate f).put (op.relocate f) = match l.put op with
    | .ok m => .ok (m.relocate f)
    | .error c => .error ⟨c.qubit, c.operation.relocate f⟩ := by
  have hcollision : (l.relocate f).collision? (op.relocate f) = l.collision? op := by
    unfold collision?
    rw [funext blocks_relocate]
    rfl
  unfold put
  rw [hcollision, relocate_mark, relocate_insert]
  by_cases hmarker : op.gate.isMarker
  · rw [if_pos hmarker, if_pos (show (op.relocate f).gate.isMarker = true from hmarker)]
  · rw [if_neg hmarker, if_neg (show ¬(op.relocate f).gate.isMarker = true from hmarker)]
    cases l.collision? op <;> rfl

theorem isEmpty_relocate : (l.relocate f).isEmpty = l.isEmpty := by
  simp [isEmpty, relocate, Array.isEmpty]

end Layer

namespace Schedule

variable {f} {g h h' : Layer → Layer} {s : Schedule}

theorem map_modifyCurrent (hh : ∀ l, h' (g l) = g (h l)) :
    (s.map g).modifyCurrent h' = (s.modifyCurrent h).map g := by
  simp only [map, modifyCurrent, hh]

theorem map_advance (l : Layer) : (s.map g).advance (g l) = (s.advance l).map g := by
  simp [map, advance]

theorem relocate_place (op : Operation) :
    (s.map (·.relocate f)).place (op.relocate f) = (s.place op).map (·.relocate f) := by
  unfold place
  rw [show (s.map (·.relocate f)).current = s.current.relocate f from rfl, Layer.relocate_put]
  cases hput : s.current.put op with
  | ok l => rfl
  | error c =>
      dsimp only
      rw [← map_advance]
      congr 1
      exact (congrArg (·.insert (c.operation.relocate f)) Layer.relocate_empty.symm).trans
        Layer.relocate_insert

end Schedule

namespace Operation

variable {f}

theorem relocate_make (gate : Gate) (tag : String) (args : List Binary32) (targets : List QubitId)
    (line : Nat) : make gate tag args targets (f line) =
      (make gate tag args targets line).map (·.relocate f) := by
  unfold make
  split_ifs <;> rfl

theorem relocate_onQubit (gate : Gate) (tag : String) (args : List Binary32) (q : QubitId)
    (line : Nat) : onQubit gate tag args q (f line) = (onQubit gate tag args q line).relocate f := rfl

end Operation

namespace Build.State

variable {f} {s : State} {line : Nat}

/-- What becomes of a result with a state. -/
def relocateSnd (f : Nat → Nat) (r : α × State) : α × State := (r.1, r.2.relocate f)

theorem ok_relocateSnd {a : α} {t : State} (h : t = s.relocate f) :
    (.ok (a, t) : Step (α × State)) = carry f (relocateSnd f) (.ok (a, s)) := by
  subst h
  rfl

theorem layer_relocate : (s.relocate f).layer = s.layer := Schedule.position_map _ _

theorem relocate_report (p : Problem) :
    (s.relocate f).report (f line) p = (s.report line p).relocate f := by
  simp [report, relocate]

theorem relocate_halt {g : α → α} (p : Problem) :
    (s.relocate f).halt (f line) p = carry f g (s.halt line p) := by
  rw [halt, relocate_report]
  rfl

theorem relocate_mapSchedule {h h' : Schedule → Schedule}
    (hh : h' (s.circuit.schedule.map (·.relocate f)) = (h s.circuit.schedule).map (·.relocate f)) :
    (s.relocate f).mapSchedule h' = (s.mapSchedule h).relocate f := by
  simp only [mapSchedule, relocate, Circuit.relocate, hh]

theorem relocate_draw (o : Overlay) :
    (s.relocate f).draw (o.relocate f) = (s.draw o).relocate f :=
  relocate_mapSchedule (Schedule.map_modifyCurrent fun _ => Layer.relocate_draw o)

theorem relocate_modify_draw (k : Nat) (o : Overlay) :
    (s.relocate f).mapSchedule (·.modify k (·.draw (o.relocate f))) =
      (s.mapSchedule (·.modify k (·.draw o))).relocate f :=
  relocate_mapSchedule (Schedule.map_modify _ k fun _ => (Layer.relocate_draw o).symm).symm

theorem relocate_modify_mark (k : Nat) (op : Operation) :
    (s.relocate f).mapSchedule (·.modify k (·.mark (op.relocate f))) =
      (s.mapSchedule (·.modify k (·.mark op))).relocate f :=
  relocate_mapSchedule (Schedule.map_modify _ k fun _ => Layer.relocate_mark.symm).symm

theorem relocate_place (op : Operation) :
    (s.relocate f).place (op.relocate f) = (s.place op).relocate f := by
  have hplaced : (s.relocate f).mapSchedule (·.place (op.relocate f)) =
      (s.mapSchedule (·.place op)).relocate f :=
    relocate_mapSchedule (Schedule.relocate_place op)
  unfold place
  rw [hplaced, show (op.relocate f).targets = op.targets from rfl]
  cases op.targets with
  | nil => rfl
  | cons q rest =>
      dsimp only
      rw [show (op.relocate f).isMeasurement = op.isMeasurement from rfl, layer_relocate]
      split_ifs <;> rfl

variable {ctx : Context} {i : Instruction}

theorem relocate_applyProduct (factors : Factors) :
    (s.relocate f).applyProduct (f line) i factors =
      carry f (·.relocate f) (s.applyProduct line i factors) := by
  unfold applyProduct
  dsimp only
  rw [Operation.relocate_make]
  cases Operation.make _ i.tag _ _ line with
  | error e => exact relocate_halt _
  | ok op => exact congrArg Except.ok (relocate_place op)

theorem relocate_applyProducts (products : List Factors) :
    (s.relocate f).applyProducts (f line) i products =
      carry f (·.relocate f) (s.applyProducts line i products) := by
  induction products generalizing s with
  | nil => rfl
  | cons factors rest ih => exact carry_bind (relocate_applyProduct factors) fun _ _ => ih

theorem relocate_buildProducts :
    (s.relocate f).buildProducts (f line) i = carry f (relocateSnd f) (s.buildProducts line i) := by
  unfold buildProducts
  generalize productsAfter false i.targets = split
  obtain ⟨_, products, _ | bad⟩ := split
  · refine carry_bind (relocate_applyProducts products) fun t _ => ?_
    rw [layer_relocate]
    rfl
  · exact relocate_halt _

theorem relocate_markFeedback (gate : Gate) (pair : List Target) (q : QubitId) :
    (s.relocate f).markFeedback ctx (f line) gate pair q =
      (s.markFeedback ctx line gate pair q).relocate f := by
  unfold markFeedback
  cases ctx.catalog.gate? "ERR" with
  | none => exact relocate_report _
  | some err =>
      dsimp only
      rw [← relocate_report, Operation.relocate_onQubit]
      congr 1
      exact relocate_mapSchedule (Schedule.map_modifyCurrent fun _ => Layer.relocate_mark)

theorem relocate_applyChunk (gate : Gate) (chunk : List Target) :
    (s.relocate f).applyChunk ctx (f line) i gate chunk =
      carry f (relocateSnd f) (s.applyChunk ctx line i gate chunk) := by
  unfold applyChunk
  cases chunk.find? Target.isClassical with
  | none =>
      dsimp only
      rw [Operation.relocate_make]
      cases Operation.make gate i.tag _ _ line with
      | error e => exact relocate_halt _
      | ok op => exact ok_relocateSnd (relocate_place op)
  | some control =>
      dsimp only
      split
      · exact ok_relocateSnd (relocate_markFeedback gate chunk _)
      · exact relocate_halt _

theorem relocate_applyChunks (gate : Gate) (chunks : List (List Target)) :
    (s.relocate f).applyChunks ctx (f line) i gate chunks =
      carry f (relocateSnd f) (s.applyChunks ctx line i gate chunks) := by
  induction chunks generalizing s with
  | nil => rfl
  | cons chunk rest ih =>
      exact carry_bind (relocate_applyChunk gate chunk) fun _ _ => carry_bind ih fun _ _ => rfl

theorem relocate_buildGate (gate : Gate) (swapped : Bool) :
    (s.relocate f).buildGate ctx (f line) i gate swapped =
      carry f (relocateSnd f) (s.buildGate ctx line i gate swapped) := by
  unfold buildGate
  cases i.targets.findSome? (gateFault? gate i) with
  | some fault => exact relocate_halt _
  | none =>
      dsimp only
      split_ifs
      · exact relocate_halt _
      · refine carry_bind (relocate_applyChunks gate _) fun r _ => ?_
        simp only [relocateSnd, layer_relocate, carry]

theorem relocate_buildNamed (source : List Char) :
    (s.relocate f).buildNamed ctx (f line) source i =
      carry f (relocateSnd f) (s.buildNamed ctx line source i) := by
  unfold buildNamed
  dsimp only
  split
  · rfl
  · split
    · exact relocate_buildGate _ _
    · exact ok_relocateSnd (relocate_report _)

theorem relocate_buildCoordinates (source : List Char) :
    (s.relocate f).buildCoordinates (f line) source i =
      carry f (relocateSnd f) (s.buildCoordinates line source i) := by
  have hdeclare (q : QubitId) (p : Point) : (s.relocate f).circuit.declare q p =
      (s.circuit.declare q p).map (·.relocate f) := by
    unfold Circuit.declare
    rw [show (s.relocate f).circuit.qubitAt? p = s.circuit.qubitAt? p from rfl]
    cases s.circuit.qubitAt? p with
    | none => rfl
    | some owner =>
        dsimp only
        split_ifs <;> rfl
  unfold buildCoordinates
  split
  · dsimp only
    rw [hdeclare]
    cases s.circuit.declare _ _ with
    | ok c => rfl
    | error e => exact relocate_halt _
  · exact relocate_halt _

theorem relocate_buildPolygon :
    (s.relocate f).buildPolygon (f line) i = carry f (relocateSnd f) (s.buildPolygon line i) := by
  unfold buildPolygon
  split
  · rfl
  · exact relocate_halt _

theorem relocate_markSites (gate : Gate) (tag : String) (index : Binary32) (sites : List Site) :
    (s.relocate f).markSites gate tag index (f line) sites =
      (s.markSites gate tag index line sites).relocate f := by
  unfold markSites
  induction sites generalizing s with
  | nil => rfl
  | cons site rest ih =>
      rw [List.foldl_cons, List.foldl_cons, Operation.relocate_onQubit, relocate_modify_mark]
      exact ih

theorem relocate_markerIndex :
    (s.relocate f).markerIndex (f line) i = carry f (relocateSnd f) (s.markerIndex line i) := by
  unfold markerIndex
  split_ifs
  · rfl
  · cases i.args.head? with
    | none => rfl
    | some v =>
        dsimp only
        split_ifs
        · rfl
        · exact relocate_halt _

theorem sites_relocate (ts : List Target) : (s.relocate f).sites ts = s.sites ts := by
  induction ts with
  | nil => rfl
  | cons t rest ih =>
      rw [sites, sites, ih]
      rfl

theorem relocate_buildMarker (source : List Char) :
    (s.relocate f).buildMarker ctx (f line) source i =
      carry f (·.relocate f) (s.buildMarker ctx line source i) := by
  unfold buildMarker
  rw [sites_relocate]
  cases s.sites i.targets with
  | error p => exact congrArg Except.ok (relocate_report p)
  | ok sites =>
      refine carry_bind relocate_markerIndex fun r _ => ?_
      dsimp only [relocateSnd]
      cases ctx.catalog.gate? i.name with
      | none => exact congrArg Except.ok (relocate_report _)
      | some gate => exact congrArg Except.ok (relocate_markSites gate i.tag r.1 sites)

theorem relocate_build (source : List Char) :
    (s.relocate f).build ctx (f line) source i =
      carry f (relocateSnd f) (s.build ctx line source i) := by
  unfold build
  split_ifs
  · refine ok_relocateSnd (relocate_mapSchedule ?_)
    rw [← Schedule.map_advance, Layer.relocate_empty]
  · exact relocate_buildCoordinates source
  · exact relocate_buildPolygon
  · rw [relocate_buildMarker]
    cases s.buildMarker ctx line source i <;> rfl
  · exact relocate_buildProducts
  · exact relocate_buildNamed source

theorem relocate_drawPolygon (headerLine line : Nat) (style : PolygonStyle) (body : PolygonBody) :
    (s.relocate f).drawPolygon (f headerLine) (f line) false style body =
      (s.drawPolygon headerLine line false style body).relocate f :=
  relocate_draw (.polygon { headerLine, bodyLine := line, madeUpHeader := false, .. })

/-- A polygon whose header is read from the line in front of it is the one that a header was made up for. -/
theorem relocate_drawBarePolygon (body : PolygonBody) :
    (s.relocate f).drawPolygon (f line - 1) (f line) false (MadeUpHeader.style ⟨line, body.colour⟩) body =
      (s.drawBarePolygon line body).relocate f := by
  unfold drawBarePolygon
  dsimp only
  split_ifs <;> exact relocate_draw (.polygon { madeUpHeader := true, .. })

theorem relocate_highlightGate (line : Nat) (colour : Option String) (qubits : List QubitId) (gate : String)
    (targets : List QubitId) (layer : Nat) :
    (s.relocate f).highlightGate (f line) colour qubits gate targets layer =
      (s.highlightGate line colour qubits gate targets layer).relocate f := by
  unfold highlightGate
  dsimp only
  split_ifs
  · exact relocate_modify_draw layer (.gateHighlight line gate targets colour)
  · rw [relocate_report]
    exact relocate_modify_draw layer (.gateHighlight line gate targets colour)

theorem relocate_resolve {o : Outcome}
    (hbare : s.anchor = .free → ∀ body, o ≠ .polygon (some body)) :
    (s.relocate f).resolve (f line) o = carry f (·.relocate f) (s.resolve line o) := by
  have hhalt (start : Nat) (p : Problem) :
      (relocate f { s with anchor := .free }).halt (f start) p =
        carry f (relocate f) ({ s with anchor := .free }.halt start p) := relocate_halt p
  unfold resolve
  rw [show (s.relocate f).anchor = s.anchor.relocate f from rfl]
  cases hanchor : s.anchor with
  | free =>
      cases o with
      | polygon body =>
          cases body with
          | none => rfl
          | some body => exact absurd rfl (hbare hanchor body)
      | _ => rfl
  | coordinates start data =>
      cases o with
      | declared q => rfl
      | _ => exact hhalt start _
  | gate start colour qubits =>
      cases o with
      | applied gate targets layer =>
          exact congrArg Except.ok
            (relocate_highlightGate (s := { s with anchor := .free }) start colour qubits gate targets layer)
      | _ => exact hhalt start _
  | polygon start style =>
      cases o with
      | polygon body =>
          cases body with
          | none => rfl
          | some body =>
              exact congrArg Except.ok
                (relocate_drawPolygon (s := { s with anchor := .free }) start line style body)
      | _ => exact hhalt start _

theorem relocate_requireSheet (name : String) :
    (s.relocate f).requireSheet (f line) name = carry f id (s.requireSheet line name) := by
  unfold requireSheet
  rw [show (s.relocate f).circuit.sheet? name = s.circuit.sheet? name from rfl]
  split_ifs
  · rfl
  · exact relocate_halt _

variable {keys : Directive.Keys}

theorem relocate_declareSheet :
    (s.relocate f).declareSheet (f line) keys = carry f (·.relocate f) (s.declareSheet line keys) := by
  unfold declareSheet
  cases keys.get? "NAME" with
  | none => exact relocate_halt _
  | some name =>
      dsimp only
      rw [show (s.relocate f).contentSeen = s.contentSeen from rfl,
        show (s.relocate f).circuit.sheet? name = s.circuit.sheet? name from rfl]
      split_ifs
      · exact relocate_halt _
      · exact relocate_halt _
      · exact congrArg Except.ok
          (relocate_draw (s := { s with circuit := s.circuit.addSheet _ }) (.sheet line name _))

theorem relocate_describeNamed :
    (s.relocate f).describeNamed (f line) keys = carry f (·.relocate f) (s.describeNamed line keys) := by
  unfold describeNamed
  split_ifs
  · split
    · rfl
    · exact relocate_halt _
  · rfl

theorem relocate_applyQubit :
    (s.relocate f).applyQubit (f line) keys = carry f (·.relocate f) (s.applyQubit line keys) := by
  rw [applyQubit_eq, applyQubit_eq]
  refine carry_bind (g := id) ?_ fun _ _ => relocate_describeNamed
  cases (QubitData.ofKeys keys).sheet with
  | none => rfl
  | some sheet => exact relocate_requireSheet sheet

theorem relocate_applyConnections : (s.relocate f).applyConnections (f line) keys =
    carry f (·.relocate f) (s.applyConnections line keys) := by
  unfold applyConnections
  exact carry_bind (relocate_requireSheet _) fun _ _ =>
    congrArg Except.ok (relocate_draw (.connections line _ _ _))

theorem relocate_applyHighlight :
    (s.relocate f).applyHighlight (f line) keys = (s.applyHighlight line keys).relocate f := by
  unfold applyHighlight
  dsimp only
  split_ifs
  · rfl
  · exact relocate_draw (.highlight line _ _ _)

theorem relocate_applyPolygon :
    (s.relocate f).applyPolygon (f line) keys = carry f (·.relocate f) (s.applyPolygon line keys) := by
  unfold applyPolygon
  exact carry_bind (relocate_requireSheet _) fun _ _ => rfl

theorem relocate_apply (d : Directive) :
    (s.relocate f).apply ctx (f line) d = carry f (·.relocate f) (s.apply ctx line d) := by
  unfold apply
  cases d.kind with
  | sheet => exact relocate_declareSheet
  | qubit => exact relocate_applyQubit
  | connections => exact relocate_applyConnections
  | highlight => exact congrArg Except.ok relocate_applyHighlight
  | polygon => exact relocate_applyPolygon
  | unknown =>
      unfold judge
      dsimp only
      split_ifs
      · exact relocate_halt _
      · exact congrArg Except.ok (relocate_report _)

theorem relocate_buildInstruction {source : List Char}
    (hbare : s.anchor = .free → ∀ body t, s.build ctx line source i ≠ .ok (.polygon (some body), t)) :
    (s.relocate f).buildInstruction ctx (f line) source i =
      carry f (·.relocate f) (s.buildInstruction ctx line source i) := by
  have hbuilt : ((s.relocate f).build ctx (f line) source i >>= fun r => r.2.resolve (f line) r.1) =
      carry f (·.relocate f)
        (s.build ctx line source i >>= fun r => r.2.resolve line r.1) := by
    refine carry_bind (relocate_build source) ?_
    rintro ⟨outcome, t⟩ hbuild
    have hadds : Adding line s (fun r => Adds line s r.2) (s.build ctx line source i) :=
      adding_build s source
    rw [hbuild] at hadds
    refine relocate_resolve fun hfree body heq => hbare (hadds.anchor.symm.trans hfree) body t ?_
    rw [hbuild, show outcome = .polygon (some body) from heq]
  unfold buildInstruction
  cases hanchor : s.anchor with
  | coordinates start data =>
      rw [show (s.relocate f).anchor = .coordinates (f start) data by
        rw [relocate, hanchor, Anchor.relocate]]
      cases decide (i.name = coordinatesName ∧ i.targets.length ≠ 1) with
      | false => exact hbuilt
      | true => exact relocate_halt (s := { s with anchor := .free }) _
  | free =>
      rw [show (s.relocate f).anchor = .free by rw [relocate, hanchor, Anchor.relocate]]
      exact hbuilt
  | gate start colour qubits =>
      rw [show (s.relocate f).anchor = .gate (f start) colour qubits by
        rw [relocate, hanchor, Anchor.relocate]]
      exact hbuilt
  | polygon start style =>
      rw [show (s.relocate f).anchor = .polygon (f start) style by
        rw [relocate, hanchor, Anchor.relocate]]
      exact hbuilt

/-- Lines with other numbers are built in the same way, except polygons that headers are made up for. -/
theorem relocate_buildLine {text : List Char}
    (hbare : s.anchor = .free → ∀ body, ¬IsPolygon text body) :
    (s.relocate f).buildLine ctx (f line) text =
      carry f (·.relocate f) (s.buildLine ctx line text) := by
  unfold buildLine
  dsimp only
  split_ifs
  · rfl
  · exact carry_bind (relocate_resolve fun _ _ h => by cases h) fun t _ => relocate_apply _
  · cases hread : Instruction.read (Text.trim text) with
    | error fault => exact relocate_halt _
    | ok i =>
        refine relocate_buildInstruction (s := { s with contentSeen := true }) ?_
        exact fun hfree body t hbuild => hbare hfree body ⟨i, hread, isPolygon_of_build hbuild⟩

end Build.State

theorem Overlay.sheetName_relocate (o : Overlay) : (o.relocate f).sheetName = o.sheetName := by
  cases o <;> rfl

theorem Overlay.qubits_relocate (o : Overlay) : (o.relocate f).qubits = o.qubits := by
  cases o <;> rfl

namespace Schedule

variable {f}

theorem ofReversed_cons {earlier : List Layer} (h : earlier ≠ []) (l : Layer) :
    ofReversed (l :: earlier) =
      if l.isEmpty then ofReversed earlier else ⟨earlier.reverse.toArray, l⟩ := by
  rw [ofReversed]
  exact h

theorem relocate_ofReversed (ls : List Layer) :
    ofReversed (ls.map (·.relocate f)) = (ofReversed ls).map (·.relocate f) := by
  induction ls with
  | nil => simp [ofReversed, empty, map, Layer.relocate_empty]
  | cons l earlier ih =>
      by_cases hnil : earlier = []
      · simp [hnil, ofReversed, map]
      · rw [List.map_cons, ofReversed_cons (by simpa using hnil), ofReversed_cons hnil,
          Layer.isEmpty_relocate]
        split_ifs
        · exact ih
        · simp [map]

theorem relocate_trimEnd (s : Schedule) :
    (s.map (·.relocate f)).trimEnd = s.trimEnd.map (·.relocate f) := by
  rw [trimEnd, trimEnd, toList_map, ← List.map_reverse, relocate_ofReversed]

end Schedule

namespace Circuit

variable {f} {c : Circuit}

theorem layers_relocate : (c.relocate f).layers = c.layers.map (·.relocate f) :=
  Schedule.toList_map _ _

theorem extent_relocate : (c.relocate f).extent = c.extent := by
  have hoperations : (c.relocate f).operationsAndMarkers =
      c.operationsAndMarkers.map (·.relocate f) := by
    simp [operationsAndMarkers, layers_relocate, List.flatMap_map, List.map_flatMap,
      Layer.operationsAndMarkers, Layer.relocate]
  have hactive : (c.relocate f).activeQubits = c.activeQubits := by
    rw [activeQubits, activeQubits, hoperations, List.flatMap_map]
    rfl
  have hoverlays : (c.relocate f).overlayQubits = c.overlayQubits := by
    simp [overlayQubits, layers_relocate, List.flatMap_map, Layer.relocate, Overlay.qubits_relocate]
  rw [extent, extent, hactive, hoverlays]
  rfl

theorem relocate_moved (entries : List (QubitId × Point)) :
    (c.relocate f).moved entries = (c.moved entries).relocate f := by
  unfold moved
  induction entries generalizing c with
  | nil => rfl
  | cons entry rest ih => exact ih (c := c.modifyQubit entry.1 (·.moveTo entry.2))

theorem relocate_complete : (c.relocate f).complete = c.complete.relocate f := by
  have hcoords : (c.relocate f).completedCoords = c.completedCoords := by
    rw [completedCoords, completedCoords, extent_relocate]
    rfl
  rw [complete_eq, complete_eq, hcoords, ← relocate_moved]
  rfl

theorem overlayRefs_relocate :
    (c.relocate f).overlayRefs = c.overlayRefs.map fun e => (e.1, e.2.relocate f) := by
  simp [overlayRefs, layers_relocate, List.zipIdx_map, List.flatMap_map, List.map_flatMap,
    Layer.relocate, Function.comp_def]

theorem relocate_registerOverlays :
    (c.relocate f).registerOverlays = c.registerOverlays.relocate f := by
  unfold registerOverlays
  rw [overlayRefs_relocate]
  simp only [relocate, List.filter_map, Function.comp_def, Overlay.sheetName_relocate, List.map_map]

/-- Lines have no part in the completion of a circuit. -/
theorem relocate_finish : (c.relocate f).finish = c.finish.relocate f := by
  unfold finish
  dsimp only
  rw [relocate_complete, ← relocate_registerOverlays]
  congr 1
  simp only [relocate, Schedule.relocate_trimEnd]

end Circuit

end StimOverlay
