import Mathlib.Data.List.GetD
import StimOverlay.Proofs.RoundTrip.CleanParse

/-! Restored layers. The text of an expressible circuit is parsed into the layers that it was written for,
one for one: each has the operations and the written markers of its layer, heading by heading and under
the new numbers, and what was drawn of it. Only layers at the end that hold none of this are lost. -/

namespace StimOverlay

open Build Emission Numeric Operation

/-- Lists that match position by position, the second one with `b` behind its end. -/
theorem forall₂_take {R : α → β → Prop} {xs : List α} {ys : List β} {a : α} {b : β}
    (h : ∀ j, R (xs.getD j a) (ys.getD j b)) (hle : ys.length ≤ xs.length) :
    List.Forall₂ R (xs.take ys.length) ys ∧ ∀ x ∈ xs.drop ys.length, R x b := by
  constructor
  · refine List.forall₂_iff_get.2 ⟨by rw [List.length_take, Nat.min_eq_left hle], ?_⟩
    intro j _ hj
    have hat := h j
    rw [List.getD_eq_getElem _ _ (Nat.lt_of_lt_of_le hj hle), List.getD_eq_getElem _ _ hj] at hat
    simpa using hat
  · intro x hx
    obtain ⟨i, hi, rfl⟩ := List.mem_iff_getElem.1 hx
    rw [List.length_drop] at hi
    have hat := h (ys.length + i)
    rw [List.getD_eq_getElem _ _ (by omega), List.getD_eq_default _ _ (by omega)] at hat
    rwa [List.getElem_drop]

namespace Emission

variable {n : Numbering} {d : Detail} {l l' : Layer}

/-- A layer that holds what is written of another one, under new numbers. -/
structure Rewritten (n : Numbering) (l l' : Layer) : Prop where
  operations : l'.operations.toList.map Action.ofOperation =
    actionsOf n (Layer.grouped l.operations.toList)
  /-- The markers of detectors and observables are not compared. -/
  markers : (l'.markers.toList.filter fun op => IsWritten op).map Action.ofOperation =
    actionsOf n ((Layer.grouped l.markers.toList).filter fun op => IsWritten op)

theorem writtenOf_eq_nil_iff : writtenOf l = [] ↔
    l.operations.toList = [] ∧ (l.markers.toList.filter fun op => IsWritten op) = [] := by
  have hnil {ops ops' : List Operation} (h : ops.Perm ops') : ops = [] ↔ ops' = [] :=
    ⟨fun heq => (heq ▸ h).nil_eq.symm, fun heq => (heq ▸ h).eq_nil⟩
  rw [writtenOf, List.append_eq_nil_iff, hnil (Layer.grouped_perm _),
    hnil ((Layer.grouped_perm _).filter _)]

@[simp] theorem writtenOf_empty : writtenOf .empty = [] := writtenOf_eq_nil_iff.2 ⟨rfl, rfl⟩

theorem actionsAt_getD (n : Numbering) (layers : List Layer) (marking : Bool) (j : Nat) :
    actionsAt n (operationsFrom 0 layers) marking j =
      actionsOf n ((writtenOf (layers.getD j .empty)).filter fun op =>
        op.gate.isMarker == marking) := by
  rw [actionsAt_operationsFrom, List.getD_eq_getElem?_getD]
  cases layers[j]? with
  | none => simp [actionsOf]
  | some l => rfl

/-- A layer that also shows what is drawn of the other one in the given detail, and no other figures. -/
structure Redrawn (n : Numbering) (d : Detail) (l l' : Layer) : Prop extends Rewritten n l l' where
  figures : figuresOf l' = (drawnOf d l).map (Figure.renumber n)

/-- Nothing is written of the layer. -/
def Bare (d : Detail) (l : Layer) : Prop := writtenOf l = [] ∧ drawnOf d l = []

theorem Rewritten.writtenOf_eq_nil_iff (h : Rewritten n l l') :
    writtenOf l' = [] ↔ writtenOf l = [] := by
  have hops : l'.operations.toList = [] ↔ Layer.grouped l.operations.toList = [] := by
    rw [← List.map_eq_nil_iff (f := Action.ofOperation), h.operations, actionsOf,
      List.map_eq_nil_iff]
  have hmarkers := List.map_eq_nil_iff (f := Action.ofOperation)
    (l := l'.markers.toList.filter fun op => IsWritten op)
  rw [h.markers, actionsOf, List.map_eq_nil_iff] at hmarkers
  rw [Emission.writtenOf_eq_nil_iff, hops, ← hmarkers, writtenOf, List.append_eq_nil_iff]

theorem bare_empty (d : Detail) : Bare d .empty := ⟨writtenOf_empty, by cases d <;> rfl⟩

theorem Redrawn.bare_iff (h : Redrawn n d l l') :
    writtenOf l' = [] ∧ figuresOf l' = [] ↔ Bare d l := by
  rw [h.writtenOf_eq_nil_iff, h.figures, List.map_eq_nil_iff, Bare]

/-- What is drawn on one layer of all. -/
theorem filter_drawnFrom (n : Numbering) (d : Detail) (layers : List Layer) (j : Nat) :
    ((drawnFrom n d 0 layers).filter (·.1 == j)).map (·.2) =
      (drawnOf d (layers.getD j .empty)).map (Figure.renumber n) := by
  have h := Circuit.filter_flatMap_zipIdx layers
    (fun e => (drawnOf d e.1).map fun f => (e.2, f.renumber n)) (fun e : Nat × Figure => e.1) 0
    (fun e _ b hb => by
      obtain ⟨f, -, rfl⟩ := List.mem_map.1 hb
      rfl) j
  rw [Nat.zero_add] at h
  rw [drawnFrom, h, List.getD_eq_getElem?_getD]
  cases layers[j]? with
  | none => cases d <;> rfl
  | some l => simp

end Emission

namespace Build

/-- The layer of a tape at position `j` holds what the layer of the parsed circuit does; there is
nothing behind the layers of the circuit. -/
theorem contents_tapeOf (text : String) (j : Nat) :
    let l := (parse text).circuit.layers.getD j .empty
    (tapeOf text).schedule.operationsAt j = l.operations.toList ∧
      (tapeOf text).schedule.markersAt j = l.markers.toList := by
  obtain ⟨rest, htape, hempty⟩ := tapeOf_toList text
  have hbare : ((parse text).circuit.layers.map Layer.bare).getD j .empty =
      ((parse text).circuit.layers.getD j .empty).bare := List.getD_map _ .empty Layer.bare
  constructor
  · rw [Schedule.operationsAt, Schedule.operations, htape, Layer.getD_map_append
      (fun l hl => by rw [(Layer.isEmpty_iff.1 hl).1]) hempty, hbare]
    rfl
  · rw [Schedule.markersAt, Schedule.markers, htape, Layer.getD_map_append
      (fun l hl => by rw [(Layer.isEmpty_iff.1 hl).2.1]) hempty, hbare]
    rfl

/-- The layer of a draft at position `j` shows what the layer of the parsed one does. -/
theorem figuresOf_parse (text : String) (j : Nat) :
    ((draft .standard text).schedule.overlaysAt j).filterMap figure? =
      figuresOf ((parse text).circuit.layers.getD j .empty) := by
  obtain ⟨f, hf, hschedule⟩ := schedule_parse text
  obtain ⟨rest, hrest, hempty⟩ := (draft .standard text).schedule.toList_eq_trimEnd_append
  rw [Schedule.overlaysAt, Schedule.overlays, hrest, Layer.getD_map_append
    (fun l hl => by rw [(Layer.isEmpty_iff.1 hl).2.2]) hempty, Circuit.layers, hschedule,
    Schedule.toList_map, List.getD_eq_getElem?_getD, List.getD_eq_getElem?_getD, List.getElem?_map]
  cases (draft .standard text).schedule.trimEnd.toList[j]? with
  | none => rfl
  | some l => exact (hf l).2.2.symm

variable {text : String} {d : Detail}

/-- Position by position, the layers of the text of a circuit are its own layers again. -/
theorem redrawn_parse (h : ExpressibleIn d (parse text).circuit)
    (hrecord : (parse text).circuit.measurements ≤ Lexeme.offsetBound) (j : Nat) :
    Redrawn (numberingOf (parse text).circuit d) d ((parse text).circuit.layers.getD j .empty)
      ((parse (Emission.text (parse text).circuit d)).circuit.layers.getD j .empty) := by
  have hretraced := retraced_parse h hrecord
  have hfigures := hretraced.shows.figures j
  rw [(filled_parse text d).2.figures, filter_drawnFrom, ← draft, figuresOf_parse] at hfigures
  have hreplayed := hretraced.replayed
  have hwritten : written 0 (lines (parse text).circuit d) =
      operationsFrom 0 (parse text).circuit.layers := written_parse text d
  rw [hwritten] at hreplayed
  have hoperations := hreplayed.operations j
  have hmarkers := hreplayed.markers j
  obtain ⟨hops, hmarks⟩ := contents_tapeOf (textOf (numberingOf (parse text).circuit d)
    (lines (parse text).circuit d)) j
  rw [hops, actionsAt_getD] at hoperations
  rw [hmarks, actionsAt_getD] at hmarkers
  have hfiled : ((parse text).circuit.layers.getD j .empty).Filed := by
    rw [List.getD_eq_getElem?_getD]
    cases hl : (parse text).circuit.layers[j]? with
    | none => exact ⟨fun _ hop => absurd hop List.not_mem_nil, fun _ hop => absurd hop List.not_mem_nil⟩
    | some l => exact filed_parse (List.mem_of_getElem? hl)
  obtain ⟨hacting, hmarking⟩ := filter_writtenOf hfiled
  exact ⟨⟨hoperations.trans (congrArg _ hacting), hmarkers.trans (congrArg _ hmarking)⟩, hfigures⟩

/-- A layer that text is read into holds something, unless nothing is written of it. -/
theorem operationsAndMarkers_ne_nil_iff {l : Layer} (hl : l ∈ (parse text).circuit.layers) :
    l.operationsAndMarkers ≠ [] ↔ writtenOf l ≠ [] := by
  refine ⟨writtenOf_ne_nil hl, fun hne hnil => hne ?_⟩
  obtain ⟨hops, hmarkers⟩ := List.append_eq_nil_iff.1 hnil
  exact writtenOf_eq_nil_iff.2 ⟨hops, by rw [hmarkers]; rfl⟩

theorem bare_iff {l : Layer} (hl : l ∈ (parse text).circuit.layers) :
    Bare d l ↔ l.operationsAndMarkers = [] ∧ drawnOf d l = [] :=
  and_congr_left fun _ => (not_iff_not.1 (operationsAndMarkers_ne_nil_iff hl)).symm

/-- The layers come back one for one, up to those at the end of which nothing is written. -/
theorem exists_kept (h : ExpressibleIn d (parse text).circuit)
    (hrecord : (parse text).circuit.measurements ≤ Lexeme.offsetBound) :
    ∃ kept dropped, (parse text).circuit.layers = kept ++ dropped ∧
      List.Forall₂ (Redrawn (numberingOf (parse text).circuit d) d) kept
        (parse (Emission.text (parse text).circuit d)).circuit.layers ∧
      (∀ l ∈ dropped, l.operationsAndMarkers = [] ∧ drawnOf d l = []) ∧
      (kept.length = 1 ∨ ∃ l, kept.getLast? = some l ∧
        (l.operationsAndMarkers ≠ [] ∨ drawnOf d l ≠ [])) := by
  have hat := redrawn_parse h hrecord
  have hdrawn : ∀ j, 0 < j →
      ∀ o ∈ (draft .standard (Emission.text (parse text).circuit d)).schedule.overlaysAt j,
        (figure? o).isSome := by
    rw [draft, text_eq_textOf]
    exact (retraced_parse h hrecord).shows.drawn
  have hlast := last_parse hdrawn
  have hbare (l : Layer) (hl : l ∈ (parse text).circuit.layers) := bare_iff (d := d) hl
  generalize (parse (Emission.text (parse text).circuit d)).circuit.layers = read at hat hlast ⊢
  have hne : 0 < (parse text).circuit.layers.length := by
    rw [Circuit.layers, Schedule.toList, List.length_append]
    exact Nat.succ_pos _
  generalize (parse text).circuit.layers = layers at hat hbare hne ⊢
  simp only [← not_and_or] at hlast ⊢
  -- The last layer that is read has something from a layer of the circuit.
  have hpast : ∀ l, read.getLast? = some l → ¬(writtenOf l = [] ∧ figuresOf l = []) →
      ∃ l', layers[read.length - 1]? = some l' ∧ ¬Bare d l' := by
    intro l hl hwritten
    rw [List.getLast?_eq_getElem?] at hl
    have hredrawn := hat (read.length - 1)
    rw [List.getD_eq_getElem?_getD, List.getD_eq_getElem?_getD, hl, Option.getD_some] at hredrawn
    rw [hredrawn.bare_iff] at hwritten
    cases hl' : layers[read.length - 1]? with
    | none => exact absurd (by rw [hl', Option.getD_none]; exact bare_empty d) hwritten
    | some l' => exact ⟨l', rfl, by rwa [hl'] at hwritten⟩
  have hle : read.length ≤ layers.length := by
    rcases hlast with hone | ⟨l, hl, hwritten⟩
    · omega
    · obtain ⟨l', hl', -⟩ := hpast l hl hwritten
      have hlt := (List.getElem?_eq_some_iff.1 hl').1
      omega
  obtain ⟨hkept, hdropped⟩ := forall₂_take hat hle
  refine ⟨layers.take read.length, layers.drop read.length, (List.take_append_drop ..).symm,
    hkept, fun l hl => ?_, ?_⟩
  · exact (hbare l (List.mem_of_mem_drop hl)).1 ((hdropped l hl).bare_iff.1 ⟨writtenOf_empty, rfl⟩)
  · rcases hlast with hone | ⟨l, hl, hwritten⟩
    · left
      rw [List.length_take, hone]
      omega
    · obtain ⟨l', hl', hwritten⟩ := hpast l hl hwritten
      right
      refine ⟨l', ?_, mt (hbare _ (List.mem_of_getElem? hl')).2 hwritten⟩
      rw [List.getLast?_eq_getElem?, List.length_take, Nat.min_eq_left hle, List.getElem?_take,
        if_pos, hl']
      have hpos := List.length_pos_of_mem (List.mem_of_getLast? hl)
      omega

end Build

end StimOverlay
