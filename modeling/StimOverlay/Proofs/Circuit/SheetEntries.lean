import StimOverlay.Proofs.Circuit.PackedCoordinates
import StimOverlay.Proofs.Record.GroupedLists
import StimOverlay.Proofs.Run.ActSources

/-! Entries of sheets. Whatever was read, the sheets of a parsed circuit sort its overlays: each overlay
is entered exactly once, in order, on the sheet that it names, and that sheet exists because nothing is
drawn, and no qubit is described, on a sheet that has not been declared. -/

namespace StimOverlay

open Build

/-- The order of layers, and within a layer that of drawing. -/
def OverlayRef.Before (a b : OverlayRef) : Prop :=
  a.layer < b.layer ∨ a.layer = b.layer ∧ a.index < b.index

namespace Circuit

/-- The overlay at a position. -/
def overlay? (c : Circuit) (r : OverlayRef) : Option Overlay :=
  c.layers[r.layer]?.bind (·.overlays[r.index]?)

/-- The sheets of the circuit sort its overlays. -/
structure Sorted (c : Circuit) : Prop where
  nodup : (c.sheets.map Sheet.name).Nodup
  first : (c.sheets.map Sheet.name).head? = some defaultSheet
  /-- Every overlay is entered once, on the sheet that it names and on no other. -/
  entered : ∀ r o, c.overlay? r = some o → ∃ s ∈ c.sheets, s.name = o.sheetName ∧
    s.overlays.count r = 1 ∧ ∀ s' ∈ c.sheets, r ∈ s'.overlays → s' = s
  /-- Nothing else is entered. -/
  inRange : ∀ s ∈ c.sheets, ∀ r ∈ s.overlays, (c.overlay? r).isSome
  ascending : ∀ s ∈ c.sheets, s.overlays.Pairwise OverlayRef.Before
  qubits : ∀ q ∈ c.qubits, c.HasSheet q.sheet

variable {c : Circuit}

theorem mem_overlayRefs {e : OverlayRef × Overlay} :
    e ∈ c.overlayRefs ↔ c.overlay? e.1 = some e.2 := by
  obtain ⟨⟨k, j⟩, o⟩ := e
  rw [overlayRefs, List.mem_flatMap, overlay?]
  constructor
  · rintro ⟨⟨l, i⟩, hl, he⟩
    obtain ⟨⟨o', j'⟩, ho, heq⟩ := List.mem_map.1 he
    cases heq
    rw [List.mem_zipIdx_iff_getElem?] at hl ho
    dsimp only at hl ho ⊢
    rw [hl, Option.bind_some, ← Array.getElem?_toList]
    exact ho
  · intro h
    obtain ⟨l, hl, ho⟩ := Option.bind_eq_some_iff.1 h
    rw [← Array.getElem?_toList] at ho
    exact ⟨(l, k), List.mem_zipIdx_iff_getElem?.2 hl,
      List.mem_map.2 ⟨(o, j), List.mem_zipIdx_iff_getElem?.2 ho, rfl⟩⟩

/-- Overlays are listed in order. -/
theorem pairwise_overlayRefs (c : Circuit) :
    c.overlayRefs.Pairwise fun a b => a.1.Before b.1 := by
  rw [overlayRefs, List.pairwise_flatMap]
  constructor
  · rintro ⟨l, k⟩ -
    rw [List.pairwise_map]
    exact (pairwise_zipIdx _).imp fun h => .inr ⟨rfl, h⟩
  · refine (pairwise_zipIdx _).imp ?_
    rintro a b hlt x hx y hy
    obtain ⟨o, -, rfl⟩ := List.mem_map.1 hx
    obtain ⟨o', -, rfl⟩ := List.mem_map.1 hy
    exact .inl hlt

/-- The references of the overlays that a sheet of the given name is for. -/
def refsOn (c : Circuit) (name : String) : List OverlayRef :=
  (c.overlayRefs.filter (·.2.sheetName == name)).map Prod.fst

theorem mem_refsOn {name : String} {r : OverlayRef} :
    r ∈ c.refsOn name ↔ ∃ o, c.overlay? r = some o ∧ o.sheetName = name := by
  rw [refsOn, List.mem_map]
  constructor
  · rintro ⟨e, he, rfl⟩
    obtain ⟨he, hname⟩ := List.mem_filter.1 he
    exact ⟨e.2, mem_overlayRefs.1 he, eq_of_beq hname⟩
  · rintro ⟨o, ho, hname⟩
    exact ⟨(r, o), List.mem_filter.2 ⟨mem_overlayRefs.2 ho, beq_iff_eq.2 hname⟩, rfl⟩

theorem pairwise_refsOn (c : Circuit) (name : String) :
    (c.refsOn name).Pairwise OverlayRef.Before := by
  rw [refsOn, List.pairwise_map]
  exact c.pairwise_overlayRefs.filter _

theorem nodup_refsOn (c : Circuit) (name : String) : (c.refsOn name).Nodup := by
  refine (c.pairwise_refsOn name).imp ?_
  rintro a b (hlt | ⟨-, hlt⟩) rfl <;> exact Nat.lt_irrefl _ hlt

theorem sheets_registerOverlays (h : ∀ s ∈ c.sheets, s.overlays = []) :
    c.registerOverlays.sheets = c.sheets.map fun s => { s with overlays := c.refsOn s.name } := by
  rw [registerOverlays]
  refine List.map_congr_left fun s hs => ?_
  rw [h s hs, List.nil_append, refsOn]

/-- Entering overlays sorts them, if there is a sheet for each. -/
theorem sorted_registerOverlays (hblank : ∀ s ∈ c.sheets, s.overlays = [])
    (hnodup : (c.sheets.map Sheet.name).Nodup)
    (hfirst : (c.sheets.map Sheet.name).head? = some defaultSheet)
    (hoverlays : ∀ r o, c.overlay? r = some o → c.HasSheet o.sheetName)
    (hqubits : ∀ q ∈ c.qubits, c.HasSheet q.sheet) : c.registerOverlays.Sorted := by
  have hsheets := sheets_registerOverlays hblank
  have hnames : c.registerOverlays.sheets.map Sheet.name = c.sheets.map Sheet.name := by
    rw [hsheets, List.map_map]
    rfl
  have hof {s : Sheet} (hs : s ∈ c.registerOverlays.sheets) : s.overlays = c.refsOn s.name := by
    rw [hsheets] at hs
    obtain ⟨s, -, rfl⟩ := List.mem_map.1 hs
    rfl
  have hoverlay (r : OverlayRef) : c.registerOverlays.overlay? r = c.overlay? r := rfl
  refine ⟨hnames ▸ hnodup, hnames ▸ hfirst, fun r o hr => ?_, fun s hs r hr => ?_, fun s hs => ?_,
    fun q hq => ?_⟩
  · rw [hoverlay] at hr
    have hhas := hoverlays r o hr
    rw [HasSheet, ← hnames] at hhas
    obtain ⟨s, hs, hname⟩ := List.mem_map.1 hhas
    refine ⟨s, hs, hname, ?_, fun s' hs' hr' => ?_⟩
    · rw [hof hs]
      exact List.count_eq_one_of_mem (c.nodup_refsOn _) (mem_refsOn.2 ⟨o, hr, hname.symm⟩)
    · rw [hof hs'] at hr'
      obtain ⟨o', ho', hname'⟩ := mem_refsOn.1 hr'
      rw [hr] at ho'
      cases ho'
      exact List.inj_on_of_nodup_map (hnames ▸ hnodup) hs' hs (hname'.symm.trans hname.symm)
  · rw [hof hs] at hr
    obtain ⟨o, ho, -⟩ := mem_refsOn.1 hr
    exact Option.isSome_of_mem ho
  · rw [hof hs]
    exact c.pairwise_refsOn _
  · rw [HasSheet, hnames]
    exact hqubits q hq

theorem sheets_moved (c : Circuit) (entries : List (QubitId × Point)) :
    (c.moved entries).sheets = c.sheets := by
  induction entries generalizing c with
  | nil => rfl
  | cons entry rest ih => exact ih _

/-- Moving qubits leaves them on their sheets; a fresh one is on the default sheet. -/
theorem sheet_of_mem_moved {entries : List (QubitId × Point)} {q : Qubit}
    (hq : q ∈ (c.moved entries).qubits) :
    q.sheet = defaultSheet ∨ ∃ r ∈ c.qubits, r.sheet = q.sheet := by
  induction entries generalizing c with
  | nil => exact .inr ⟨q, hq, rfl⟩
  | cons entry rest ih =>
      rcases ih hq with hdefault | ⟨x, hx, hsheet⟩
      · exact .inl hdefault
      · obtain ⟨y, hy, hxy⟩ := mem_modifyQubit hx
        have hsame : x.sheet = y.sheet := by rcases hxy with rfl | rfl <;> rfl
        rw [← hsheet, hsame]
        exact hy.symm.imp_right fun hy => ⟨y, hy, rfl⟩

theorem sheets_complete (c : Circuit) : c.complete.sheets = c.sheets := by
  rw [complete_eq, sheets_moved, pack]

theorem sheet_of_mem_complete {q : Qubit} (hq : q ∈ c.complete.qubits) :
    q.sheet = defaultSheet ∨ ∃ r ∈ c.qubits, r.sheet = q.sheet := by
  rw [complete_eq] at hq
  have hmoved := sheet_of_mem_moved hq
  rwa [qubits_pack] at hmoved

end Circuit

namespace Build

/-- Sheets are declared under different names, and whatever needs a sheet has one. -/
structure Sheeted (s : State) : Prop where
  nodup : (s.circuit.sheets.map Sheet.name).Nodup
  first : (s.circuit.sheets.map Sheet.name).head? = some defaultSheet
  blank : ∀ t ∈ s.circuit.sheets, t.overlays = []
  overlays : ∀ o, s.circuit.schedule.Draws o → s.circuit.HasSheet o.sheetName
  qubits : ∀ q ∈ s.circuit.qubits, s.circuit.HasSheet q.sheet
  anchor : ∀ name ∈ s.anchor.sheet?, s.circuit.HasSheet name

namespace Sheeted

variable {a : Act} {start : Option Nat} {s t : State}

theorem default (h : Sheeted s) : s.circuit.HasSheet defaultSheet :=
  List.mem_of_head? h.first

theorem initial : Sheeted {} where
  nodup := List.nodup_singleton _
  first := rfl
  blank t ht := by
    rw [List.mem_singleton.1 ht]
  overlays o ho := by
    obtain ⟨os, hos, ho⟩ := ho
    rw [List.mem_singleton.1 hos] at ho
    exact absurd ho (Array.not_mem_empty o)
  qubits q hq := absurd hq (Array.not_mem_empty q)
  anchor name hname := absurd hname (Option.not_mem_none name)

theorem report (h : Sheeted s) (line : Nat) (p : Problem) : Sheeted (s.report line p) := { h with }

theorem adds {line : Nat} (h : Sheeted s) (hadds : Adds line s t) : Sheeted t := by
  have hhas {name : String} : t.circuit.HasSheet name ↔ s.circuit.HasSheet name := by
    rw [Circuit.HasSheet, hadds.sheets, Circuit.HasSheet]
  refine ⟨hadds.sheets ▸ h.nodup, hadds.sheets ▸ h.first, hadds.sheets ▸ h.blank,
    fun o ho => hhas.2 (h.overlays o (hadds.draws_iff.1 ho)), ?_, ?_⟩
  · intro q hq
    rcases hadds.qubits q hq with hdefault | ⟨r, hr, hsheet⟩
    · exact hhas.2 (hdefault ▸ h.default)
    · exact hhas.2 (hsheet ▸ h.qubits r hr)
  · intro name hname
    rw [hadds.anchor] at hname
    exact hhas.2 (h.anchor name hname)

theorem modify_draw (h : Sheeted s) {o : Overlay} (ho : s.circuit.HasSheet o.sheetName) (k : Nat) :
    Sheeted (s.mapSchedule (·.modify k (·.draw o))) :=
  { h with
    overlays := by
      intro o' ho'
      rcases Schedule.draws_modify.1 ho' with ho' | ⟨-, rfl⟩
      · exact h.overlays o' ho'
      · exact ho }

theorem draw (h : Sheeted s) {o : Overlay} (ho : s.circuit.HasSheet o.sheetName) :
    Sheeted (s.draw o) :=
  { h with
    overlays := by
      intro o' ho'
      rcases Schedule.draws_modifyCurrent.1 ho' with ho' | rfl
      · exact h.overlays o' ho'
      · exact ho }

theorem drawBarePolygon (h : Sheeted s) (line : Nat) (body : PolygonBody) :
    Sheeted (s.drawBarePolygon line body) := by
  unfold State.drawBarePolygon
  dsimp only
  have hdrawn {u : State} (hu : Sheeted u) :
      Sheeted (u.drawPolygon line line true (MadeUpHeader.style ⟨line, body.colour⟩) body) :=
    hu.draw hu.default
  apply hdrawn
  split_ifs
  · exact h
  · exact { h with }

theorem declareSheet (h : Sheeted s) {name : String} (z : Int)
    (fresh : ¬s.circuit.HasSheet name) :
    Sheeted { s with circuit := s.circuit.addSheet { name, z } } := by
  have hnames : (s.circuit.addSheet { name, z }).sheets.map Sheet.name =
      s.circuit.sheets.map Sheet.name ++ [name] := List.map_append
  have hhas {other : String} (hother : s.circuit.HasSheet other) :
      (s.circuit.addSheet { name, z }).HasSheet other := by
    rw [Circuit.HasSheet, hnames]
    exact List.mem_append_left _ hother
  refine ⟨?_, ?_, ?_, fun o ho => hhas (h.overlays o ho),
    fun q hq => hhas (h.qubits q hq), fun other hother => hhas (h.anchor other hother)⟩
  · dsimp only
    rw [hnames, List.nodup_append]
    refine ⟨h.nodup, List.nodup_singleton _, ?_⟩
    rintro other hother _ hname rfl
    exact fresh (List.mem_singleton.1 hname ▸ hother)
  · dsimp only
    rw [hnames, List.head?_append, h.first]
    rfl
  · intro t ht
    rcases List.mem_append.1 ht with ht | ht
    · exact h.blank t ht
    · rw [List.mem_singleton.1 ht]

theorem describe (h : Sheeted s) (q : QubitId) {data : QubitData}
    (hdata : ∀ name ∈ data.sheet, s.circuit.HasSheet name) : Sheeted (s.describe q data) :=
  { h with
    qubits := by
      intro x hx
      obtain ⟨y, hy, hxy⟩ := Circuit.mem_modifyQubit hx
      have hsheet : s.circuit.HasSheet y.sheet := by
        rcases hy with hy | hdefault
        · exact h.qubits y hy
        · rw [hdefault]
          exact h.default
      rcases hxy with rfl | rfl
      · exact hsheet
      · show s.circuit.HasSheet (data.sheet.getD y.sheet)
        cases hname : data.sheet with
        | none => exact hsheet
        | some name => exact hdata name hname }

/-- Whatever an act edits, sheets stay in order. -/
theorem edit (h : Sheeted s) (hedit : Edit a start s t) : Sheeted t := by
  cases hedit with
  | adds hadds => exact h.adds hadds
  | release => exact { h with anchor := fun name hname => absurd hname (Option.not_mem_none name) }
  | await _ sheet => exact { h with anchor := sheet }
  | warn => exact h.report _ _
  | draw sheet _ =>
      rcases sheet with hdefault | hsheet
      · exact h.draw (hdefault ▸ h.default)
      · exact h.draw hsheet
  | highlightGate => exact h.modify_draw (o := .gateHighlight ..) h.default _
  | drawPolygon header _ =>
      refine h.draw (h.anchor _ ?_)
      rw [header]
      rfl
  | drawBarePolygon => exact h.drawBarePolygon _ _
  | declareSheet fresh => exact h.declareSheet _ fresh
  | describe q sheet =>
      exact h.describe q fun name hname => (sheet name hname).elim id (h.anchor name)

end Sheeted

theorem Sheeted.sorted_finish {s : State} (h : Sheeted s) : s.circuit.finish.Sorted := by
  have hsheets := Circuit.sheets_complete s.circuit
  have hschedule := Circuit.schedule_complete s.circuit
  have hqubits (q : Qubit) (hq : q ∈ s.circuit.complete.qubits) : s.circuit.HasSheet q.sheet := by
    rcases Circuit.sheet_of_mem_complete hq with hdefault | ⟨x, hx, hsheet⟩
    · rw [hdefault]
      exact h.default
    · rw [← hsheet]
      exact h.qubits x hx
  have hoverlays (r : OverlayRef) (o : Overlay) {d : Circuit}
      (hd : d.schedule = s.circuit.schedule.trimEnd) (hr : d.overlay? r = some o) :
      s.circuit.HasSheet o.sheetName := by
    obtain ⟨l, hl, ho⟩ := Option.bind_eq_some_iff.1 hr
    obtain ⟨rest, hrest, -⟩ := s.circuit.schedule.toList_eq_trimEnd_append
    rw [Circuit.layers, hd] at hl
    refine h.overlays o (Schedule.draws_iff.2 ⟨l, ?_, Array.mem_of_getElem? ho⟩)
    rw [hrest]
    exact List.mem_append_left _ (List.mem_of_getElem? hl)
  rw [Circuit.finish]
  generalize s.circuit.complete = d at hsheets hschedule hqubits
  have hhas {name : String} (hname : s.circuit.HasSheet name) : name ∈ d.sheets.map Sheet.name := by
    rw [hsheets]
    exact hname
  refine Circuit.sorted_registerOverlays ?_ ?_ ?_ (fun r o hr => hhas (hoverlays r o ?_ hr))
    fun q hq => hhas (hqubits q hq)
  · rw [hsheets]
    exact h.blank
  · rw [hsheets]
    exact h.nodup
  · rw [hsheets]
    exact h.first
  · rw [hschedule]

/-- At the end of every run sheets are in order. -/
theorem sheeted_finalState (ctx : Context) (lines : List (List Char)) :
    Sheeted (finalState ctx lines) :=
  finalState_induction .initial (fun _ _ _ _ _ _ hedit h => h.edit hedit)
    fun _ _ _ _ line p _ _ h => h.report line p

variable (ctx : Context) (text : String)

theorem sheetName_shiftOverlay (inserted : List Nat) (o : Overlay) :
    (Parsed.shiftOverlay inserted o).sheetName = o.sheetName := by
  cases o <;> rfl

/-- The overlays of a parsed circuit are where those of the finished draft are, and on the same
sheets. -/
theorem overlay?_parseWith (r : OverlayRef) : ∃ inserted,
    (parseWith ctx text).circuit.overlay? r =
      ((draft ctx text).finish.overlay? r).map (Parsed.shiftOverlay inserted) := by
  obtain ⟨inserted, hlayers⟩ := layers_parseWith ctx text
  refine ⟨inserted, ?_⟩
  have hfinish : (draft ctx text).finish.layers = (draft ctx text).schedule.trimEnd.toList := by
    rw [Circuit.layers, Circuit.schedule_finish]
  rw [Circuit.overlay?, Circuit.overlay?, hlayers, hfinish, List.getElem?_map]
  cases (draft ctx text).schedule.trimEnd.toList[r.layer]? with
  | none => rfl
  | some l => simp

/-- The sheets of every parsed circuit sort its overlays, and every qubit is on one of them. -/
theorem sorted_parseWith : (parseWith ctx text).circuit.Sorted := by
  have h : (draft ctx text).finish.Sorted :=
    (sheeted_finalState ctx (Source.normalize text.toList)).sorted_finish
  have hsheets : (parseWith ctx text).circuit.sheets = (draft ctx text).finish.sheets := by
    simp only [parseWith, Parsed.ofState, draft]
  have hqubits : (parseWith ctx text).circuit.qubits = (draft ctx text).finish.qubits := by
    simp only [parseWith, Parsed.ofState, draft]
  refine ⟨?_, ?_, fun r o hr => ?_, fun s hs r hr => ?_, ?_, fun q hq => ?_⟩
  · rw [hsheets]
    exact h.nodup
  · rw [hsheets]
    exact h.first
  · obtain ⟨inserted, hoverlay⟩ := overlay?_parseWith ctx text r
    rw [hoverlay] at hr
    obtain ⟨o', ho', rfl⟩ := Option.map_eq_some_iff.1 hr
    rw [sheetName_shiftOverlay, hsheets]
    exact h.entered r o' ho'
  · obtain ⟨inserted, hoverlay⟩ := overlay?_parseWith ctx text r
    rw [hoverlay, Option.isSome_map]
    rw [hsheets] at hs
    exact h.inRange s hs r hr
  · rw [hsheets]
    exact h.ascending
  · rw [Circuit.HasSheet, hsheets]
    rw [hqubits] at hq
    exact h.qubits q hq

end Build

end StimOverlay
