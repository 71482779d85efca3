import StimOverlay.Proofs.Circuit.SheetEntries
import StimOverlay.Proofs.Emission.QubitNumbers
import StimOverlay.Proofs.Parsed.LineLocations
import StimOverlay.Proofs.RoundTrip.LineRuns

/-! Writable sheets. What a parsed circuit declares and draws fits on lines again. Names of sheets and
styles of polygons come from lines, so that there is no line feed in them; heights are within their range;
and every polygon has a corner. -/

namespace StimOverlay

open Build Emission

namespace Emission

theorem sheetName_of_figure {o : Overlay} {f : Figure} (h : figure? o = some f) :
    o.sheetName = f.style.sheet := by
  cases o with
  | polygon p =>
      cases h
      rfl
  | _ => cases h

/-- A figure that fits on lines, apart from what is in its values. -/
structure Figure.OnLines (f : Figure) : Prop where
  corners : f.body.corners ≠ []
  stroke : ∀ v ∈ f.style.stroke, '\n' ∉ v.toList
  fill : ∀ v ∈ f.style.fill, '\n' ∉ v.toList

end Emission

namespace Build

theorem IsPolygon.corners_ne_nil {text : List Char} {body : PolygonBody} (h : IsPolygon text body) :
    body.corners ≠ [] := by
  obtain ⟨i, -, -, hbuild⟩ := h
  have hbuild := hbuild {} 0
  unfold State.buildPolygon at hbuild
  split at hbuild
  · rw [PolygonBody.ofCorners?] at hbuild
    split_ifs at hbuild with hempty
    · cases hbuild
    · cases hbuild
      simpa using hempty
  · cases hbuild

/-- The lines that are run have no line feeds in them. -/
theorem newline_notMem_act {lines : List (List Char)} (hplain : ∀ line ∈ lines, '\n' ∉ line)
    {ctx : Context} {a : Act} (ha : a ∈ course ctx lines) : '\n' ∉ a.text := by
  cases a with
  | line number text =>
      rcases of_mem_course ha with ha | ha
      · exact hplain text (List.mem_of_getElem? ha.2.1)
      · cases ha
  | structural number => exact List.not_mem_nil
  | fault number p => exact List.not_mem_nil

/-- What an act draws are no figures, apart from the polygon on its line, in the style that waits for it or
in the style that is made up for its colour. -/
theorem Edit.draws_cases {a : Act} {start : Option Nat} {s t : State} (h : Edit a start s t) {o : Overlay}
    (ho : t.circuit.schedule.Draws o) : s.circuit.schedule.Draws o ∨ ∀ f ∈ figure? o,
      IsPolygon a.text f.body ∧ ((∃ line, s.anchor = .polygon line f.style) ∨
        f.style = MadeUpHeader.style ⟨a.number, f.body.colour⟩) := by
  cases h with
  | adds hadds => exact .inl (hadds.draws_iff.1 ho)
  | release | await | warn | declareSheet | describe => exact .inl ho
  | draw _ other =>
      refine (Schedule.draws_modifyCurrent.1 ho).imp_right ?_
      rintro rfl f hf
      cases o with
      | polygon p => exact absurd rfl (other p)
      | _ => cases hf
  | highlightGate =>
      refine (Schedule.draws_modify.1 ho).imp_right ?_
      rintro ⟨-, rfl⟩ f hf
      cases hf
  | drawPolygon header polygon =>
      refine (Schedule.draws_modifyCurrent.1 ho).imp_right ?_
      rintro rfl f hf
      cases hf
      exact ⟨polygon, .inl ⟨_, header⟩⟩
  | drawBarePolygon _ polygon =>
      have hdrawn {u : State} {line : Nat} {style : PolygonStyle} {body : PolygonBody}
          (ho : (u.drawPolygon line line true style body).circuit.schedule.Draws o) :
          u.circuit.schedule.Draws o ∨ figure? o = some ⟨style, body⟩ :=
        (Schedule.draws_modifyCurrent.1 ho).imp_right (by rintro rfl; rfl)
      unfold State.drawBarePolygon at ho
      dsimp only at ho
      rcases hdrawn ho with ho | hfigure
      · refine .inl ?_
        split_ifs at ho <;> exact ho
      · refine .inr fun f hf => ?_
        rw [hfigure] at hf
        cases hf
        exact ⟨polygon, .inr rfl⟩

/-- What a state declares and draws fits on lines, whatever waits. -/
structure OnLines (s : State) : Prop where
  first : (sheetsOf s.circuit).head? = some (defaultSheet, 0)
  sheets : ∀ e ∈ sheetsOf s.circuit, '\n' ∉ e.1.toList ∧ leastZ ≤ e.2 ∧ e.2 ≤ greatestZ
  figures : ∀ o, s.circuit.schedule.Draws o → ∀ f ∈ figure? o, f.OnLines
  anchor : ∀ line style, s.anchor = .polygon line style →
    (∀ v ∈ style.stroke, '\n' ∉ v.toList) ∧ ∀ v ∈ style.fill, '\n' ∉ v.toList

namespace OnLines

variable {a : Act} {start : Option Nat} {s t : State}

theorem initial : OnLines {} where
  first := rfl
  sheets e he := by
    rw [List.mem_singleton.1 he]
    decide
  figures o ho := by
    obtain ⟨os, hos, ho⟩ := ho
    rw [List.mem_singleton.1 hos] at ho
    exact absurd ho (Array.not_mem_empty o)
  anchor line style h := by cases h

theorem report (h : OnLines s) (line : Nat) (p : Problem) : OnLines (s.report line p) := { h with }

/-- An act on a line edits in what fits on lines. The style that is made up for a colour is made of numbers
and punctuation. -/
theorem edit (hplain : '\n' ∉ a.text) (h : OnLines s) (hedit : Edit a start s t) : OnLines t := by
  have hfigures : ∀ o, t.circuit.schedule.Draws o → ∀ f ∈ figure? o, f.OnLines := by
    intro o ho f hf
    rcases hedit.draws_cases ho with ho | hdrawn
    · exact h.figures o ho f hf
    obtain ⟨hpolygon, ⟨line, hanchor⟩ | hstyle⟩ := hdrawn f hf
    · obtain ⟨hstroke, hfill⟩ := h.anchor line f.style hanchor
      exact ⟨hpolygon.corners_ne_nil, hstroke, hfill⟩
    · have hvalues := MadeUpHeader.newline_notMem_pairs ⟨a.number, f.body.colour⟩
      refine ⟨hpolygon.corners_ne_nil, fun v hv => ?_, fun v hv => ?_⟩
      · rw [hstyle] at hv
        cases hv
        exact hvalues ("stroke", "none") (by simp [MadeUpHeader.pairs])
      · rw [hstyle] at hv
        cases hv
        exact hvalues ("fill", MadeUpHeader.fill ⟨a.number, f.body.colour⟩) (by simp [MadeUpHeader.pairs])
  cases hedit with
  | adds hadds =>
      have hsheets : sheetsOf t.circuit = sheetsOf s.circuit := by
        rw [sheetsOf, hadds.sheets, sheetsOf]
      exact ⟨hsheets ▸ h.first, hsheets ▸ h.sheets, hfigures, hadds.anchor ▸ h.anchor⟩
  | release => exact { h with anchor := fun line style h => by cases h }
  | await _ _ _ values =>
      exact { h with
        anchor := fun line style hw =>
          ⟨fun v hv hmem => hplain ((values line style hw).stroke v hv hmem),
            fun v hv hmem => hplain ((values line style hw).fill v hv hmem)⟩ }
  | warn => exact h.report _ _
  | draw | highlightGate | drawPolygon | describe => exact { h with figures := hfigures }
  | @drawBarePolygon body =>
      have hsame : sheetsOf (s.drawBarePolygon a.number body).circuit = sheetsOf s.circuit ∧
          (s.drawBarePolygon a.number body).anchor = s.anchor := by
        unfold State.drawBarePolygon
        dsimp only
        split_ifs <;> exact ⟨rfl, rfl⟩
      exact ⟨hsame.1 ▸ h.first, hsame.1 ▸ h.sheets, hfigures, hsame.2 ▸ h.anchor⟩
  | @declareSheet name z _ value low high =>
      have hsheets : sheetsOf (s.circuit.addSheet { name, z }) = sheetsOf s.circuit ++ [(name, z)] :=
        List.map_append
      refine { h with first := ?_, sheets := fun e he => ?_ }
      · rw [hsheets, List.head?_append, h.first]
        rfl
      · rcases List.mem_append.1 (hsheets ▸ he) with he | he
        · exact h.sheets e he
        · rw [List.mem_singleton.1 he]
          exact ⟨fun hmem => hplain (value hmem), low, high⟩

end OnLines

theorem onLines_finalState (ctx : Context) {lines : List (List Char)}
    (hplain : ∀ line ∈ lines, '\n' ∉ line) : OnLines (finalState ctx lines) :=
  finalState_induction .initial
    (fun _ ha _ _ _ _ hedit h => h.edit (newline_notMem_act hplain ha) hedit)
    fun _ _ _ _ line p _ _ h => h.report line p

/-- The body of every figure that a run draws stands on one of its lines. -/
theorem isPolygon_of_draws {ctx : Context} {lines : List (List Char)} {o : Overlay}
    (ho : (finalState ctx lines).circuit.schedule.Draws o) :
    ∀ f ∈ figure? o, ∃ a ∈ course ctx lines, IsPolygon a.text f.body := by
  refine finalState_induction (P := fun s => ∀ o, s.circuit.schedule.Draws o →
      ∀ f ∈ figure? o, ∃ a ∈ course ctx lines, IsPolygon a.text f.body)
    (fun o ho => ?_) (fun a ha _ _ _ _ hedit h o ho f hf => ?_) (fun _ _ _ _ _ _ _ _ h => h) o ho
  · obtain ⟨os, hos, ho⟩ := ho
    rw [List.mem_singleton.1 hos] at ho
    exact absurd ho (Array.not_mem_empty o)
  · rcases hedit.draws_cases ho with ho | hdrawn
    · exact h o ho f hf
    · exact ⟨a, ha, (hdrawn f hf).1⟩

variable (ctx : Context) (text : String)

theorem figure?_shiftOverlay (inserted : List Nat) (o : Overlay) :
    figure? (Parsed.shiftOverlay inserted o) = figure? o := by
  cases o <;> rfl

theorem onLines_draft : OnLines (finalState ctx (Source.normalize text.toList)) :=
  onLines_finalState ctx fun _ => Source.newline_notMem_normalize

theorem sheetsOf_finish (c : Circuit) : sheetsOf c.finish = sheetsOf c := by
  rw [sheetsOf, Circuit.finish, Circuit.registerOverlays, List.map_map, Circuit.sheets_complete]
  exact List.map_congr_left fun sheet _ => rfl

theorem sheetsOf_parseWith : sheetsOf (parseWith ctx text).circuit = sheetsOf (draft ctx text) := by
  have hsheets : (parseWith ctx text).circuit.sheets = (draft ctx text).finish.sheets := by
    simp only [parseWith, Parsed.ofState, draft]
  rw [sheetsOf, hsheets, ← sheetsOf, sheetsOf_finish]

/-- Sheets that can be declared one after another. -/
structure Declarable (sheets : List (String × Int)) : Prop where
  first : sheets.head? = some (defaultSheet, 0)
  nodup : (sheets.map (·.1)).Nodup
  newline : ∀ e ∈ sheets, '\n' ∉ e.1.toList
  height : ∀ e ∈ sheets, leastZ ≤ e.2 ∧ e.2 ≤ greatestZ

theorem declarable_parseWith : Declarable (sheetsOf (parseWith ctx text).circuit) := by
  have honLines := onLines_draft ctx text
  have hsheeted := sheeted_finalState ctx (Source.normalize text.toList)
  rw [sheetsOf_parseWith, draft]
  refine ⟨honLines.first, ?_, fun e he => (honLines.sheets e he).1, fun e he =>
    (honLines.sheets e he).2⟩
  rw [sheetsOf, List.map_map]
  exact hsheeted.nodup

/-- Everything that is drawn on the layers has been drawn in the run. -/
theorem exists_draws_of_figure {l : Layer} (hl : l ∈ (parseWith ctx text).circuit.layers) {f : Figure}
    (hf : f ∈ figuresOf l) :
    ∃ o, (finalState ctx (Source.normalize text.toList)).circuit.schedule.Draws o ∧
      figure? o = some f := by
  obtain ⟨inserted, hlayers⟩ := layers_parseWith ctx text
  rw [hlayers] at hl
  obtain ⟨l', hl', heq⟩ := List.mem_map.1 hl
  obtain ⟨o, ho, hfigure⟩ := List.mem_filterMap.1 hf
  rw [← heq, Array.toList_map] at ho
  obtain ⟨o', ho', rfl⟩ := List.mem_map.1 ho
  rw [figure?_shiftOverlay] at hfigure
  have hdraws : (draft ctx text).schedule.trimEnd.Draws o' :=
    Schedule.draws_iff.2 ⟨l', hl', Array.mem_toList_iff.1 ho'⟩
  refine ⟨o', ?_, hfigure⟩
  rw [← draft]
  exact Schedule.draws_trimEnd.1 hdraws

variable {text : String} {l : Layer} {f : Figure}

theorem onLines_of_figure (hl : l ∈ (parse text).circuit.layers) (hf : f ∈ figuresOf l) :
    f.OnLines := by
  obtain ⟨o, hdraws, ho⟩ := exists_draws_of_figure .standard text hl hf
  exact (onLines_draft .standard text).figures o hdraws f ho

theorem sheet_of_figure (hl : l ∈ (parse text).circuit.layers) (hf : f ∈ figuresOf l) :
    f.style.sheet ∈ (sheetsOf (parse text).circuit).map (·.1) := by
  obtain ⟨o, hdraws, ho⟩ := exists_draws_of_figure .standard text hl hf
  have hsheet := (sheeted_finalState .standard (Source.normalize text.toList)).overlays o hdraws
  rw [parse, sheetsOf_parseWith, draft, sheetsOf, List.map_map, ← sheetName_of_figure ho]
  exact hsheet

end Build

namespace Emission

variable {l : Layer} {f : Figure}

theorem exists_polygon_of_figure (hf : f ∈ figuresOf l) : ∃ p, .polygon p ∈ l.overlays.toList ∧
    f = ⟨⟨p.sheet, p.stroke, p.fill⟩, ⟨p.colour, p.corners⟩⟩ := by
  obtain ⟨o, ho, hfigure⟩ := List.mem_filterMap.1 hf
  cases o with
  | polygon p => exact ⟨p, ho, (Option.some_inj.1 hfigure).symm⟩
  | _ => cases hfigure

/-- What is drawn is written figure by figure. -/
theorem flatMap_overlayLines (l : Layer) : l.overlays.toList.flatMap overlayLines =
    (figuresOf l).flatMap fun f => [.polygonHeader f.style.sheet f.style.stroke f.style.fill,
      .polygonBody f.body.colour f.body.corners] := by
  rw [figuresOf]
  induction l.overlays.toList with
  | nil => rfl
  | cons o rest ih =>
      rw [List.flatMap_cons, ih]
      cases o <;> rfl

theorem corner_mem_mentioned {c : Circuit} (hl : l ∈ c.layers) (hf : f ∈ figuresOf l) {q : QubitId}
    (hq : q ∈ f.body.corners) : q ∈ mentioned c .annotated := by
  obtain ⟨p, hp, rfl⟩ := exists_polygon_of_figure hf
  exact mem_mentioned_annotated.2 (.inr (Circuit.mem_overlayQubits.2 ⟨l, hl, .polygon p, hp, hq⟩))

end Emission

namespace Build

variable {text : String} {l : Layer} {f : Figure}

/-- The figures of a circuit that can be drawn are in styles and colours that are read as they are
written. -/
theorem isStyle_of_drawable (h : Drawable (parse text).circuit)
    (hl : l ∈ (parse text).circuit.layers) (hf : f ∈ figuresOf l) :
    IsStyle f.style.sheet f.style.stroke f.style.fill ∧
      ∀ v ∈ f.body.colour.components, v.isFinite ∧ v.ReadsBack := by
  have hlines := onLines_of_figure hl hf
  obtain ⟨hstroke, hfill⟩ := h.styles l hl f hf
  obtain ⟨e, he, hname⟩ := List.mem_map.1 (sheet_of_figure hl hf)
  have hnewline := (declarable_parseWith .standard text).newline e he
  obtain ⟨sheet, hmem, rfl⟩ := List.mem_map.1 he
  refine ⟨⟨⟨?_, ?_⟩, fun v hv => ⟨hstroke v hv, hlines.stroke v hv⟩,
    fun v hv => ⟨hfill v hv, hlines.fill v hv⟩⟩, h.colours l hl f hf⟩
  · exact hname ▸ h.sheets sheet hmem
  · exact hname ▸ hnewline

end Build

end StimOverlay
