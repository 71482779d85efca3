import StimOverlay.Proofs.Circuit.PackedCoordinates
import StimOverlay.Proofs.Parsed.InsertedHeaders
import StimOverlay.Proofs.Run.ActSources

/-! Locating lines. A run remembers only numbers of lines that it has read: those of the headers it makes
up, of diagnostics, and of the two lines of every polygon. So in the text of the parse they point to the
lines that they are about, a made-up header being found where it was inserted. -/

namespace StimOverlay

open Build

namespace Build

/-- The line of the given number, counted from one, satisfies `P`. -/
def LineIs (lines : List (List Char)) (number : Nat) (P : List Char → Prop) : Prop :=
  0 < number ∧ ∃ text, lines[number - 1]? = some text ∧ P text

theorem LineIs.imp {lines : List (List Char)} {number : Nat} {P Q : List Char → Prop}
    (h : LineIs lines number P) (hPQ : ∀ text, P text → Q text) : LineIs lines number Q := by
  obtain ⟨hpos, text, htext, hP⟩ := h
  exact ⟨hpos, text, htext, hPQ text hP⟩

theorem LineIs.number_le {lines : List (List Char)} {number : Nat} {P : List Char → Prop}
    (h : LineIs lines number P) : number ≤ lines.length := by
  obtain ⟨hpos, text, htext, -⟩ := h
  have hlt := (List.getElem?_eq_some_iff.1 htext).1
  omega

/-- The lines of a polygon: that of the instruction, and that of a header that was read or made up. -/
structure PolygonOf (lines : List (List Char)) (made : List Nat) (p : Polygon) : Prop where
  body : LineIs lines p.bodyLine fun text => ∃ body, IsPolygon text body
  read : p.madeUpHeader = false → LineIs lines p.headerLine fun text =>
    IsPolygonHeader (Text.trim text)
  made : p.madeUpHeader = true → p.bodyLine ∈ made

/-- Every number that the state holds is that of a line of the right kind. -/
structure Sourced (lines : List (List Char)) (s : State) : Prop where
  headers : ∀ h ∈ s.headers.toList, LineIs lines h.line fun text =>
    Block.mark (Text.trim text) = .plain ∧ ∃ body, IsPolygon text body ∧ body.colour = h.colour
  nodup : (s.headers.toList.map (·.line)).Nodup
  drawn : ∀ h ∈ s.headers.toList, ∃ p, s.circuit.schedule.Draws (.polygon p) ∧
    p.madeUpHeader = true ∧ p.bodyLine = h.line
  polygons : ∀ p, s.circuit.schedule.Draws (.polygon p) →
    PolygonOf lines (s.headers.toList.map (·.line)) p
  anchor : ∀ number ∈ s.anchor.line?, 0 < number ∧ number ≤ lines.length
  awaiting : ∀ number style, s.anchor = .polygon number style →
    LineIs lines number fun text => IsPolygonHeader (Text.trim text)
  diagnostics : ∀ d ∈ s.diagnostics.toList, 0 < d.line ∧ d.line ≤ lines.length

theorem not_isPolygon_nil (body : PolygonBody) : ¬IsPolygon [] body := by
  rintro ⟨i, hread, -⟩
  cases hread

theorem not_isPolygonHeader_nil : ¬IsPolygonHeader (Text.trim []) := by
  rintro ⟨hdirective, -⟩
  cases hdirective

/-- What an act finds in its text is found in the line of its number. -/
theorem Act.Of.lineIs {lines : List (List Char)} {a : Act} (h : a.Of lines) {P : List Char → Prop}
    (hP : P a.text) (hnil : ¬P []) :
    LineIs lines a.number fun text => Block.mark (Text.trim text) = .plain ∧ P text := by
  cases a with
  | line number text => exact ⟨h.1, text, h.2.1, h.2.2, hP⟩
  | structural number => exact absurd hP hnil
  | fault number p => exact absurd hP hnil

namespace Sourced

variable {lines : List (List Char)} {a : Act} {r s t : State}

theorem initial : Sourced lines {} where
  headers h hh := absurd hh List.not_mem_nil
  nodup := List.nodup_nil
  drawn h hh := absurd hh List.not_mem_nil
  polygons p hp := by
    obtain ⟨os, hos, hp⟩ := hp
    rw [List.mem_singleton.1 hos] at hp
    exact absurd hp (Array.not_mem_empty _)
  anchor number h := absurd h (Option.not_mem_none number)
  awaiting number style h := by cases h
  diagnostics d hd := absurd hd List.not_mem_nil

theorem report (h : Sourced lines s) {line : Nat} (hline : 0 < line ∧ line ≤ lines.length)
    (p : Problem) : Sourced lines (s.report line p) :=
  { h with
    diagnostics := by
      intro d hd
      rw [State.report, Array.toList_push] at hd
      rcases List.mem_append.1 hd with hd | hd
      · exact h.diagnostics d hd
      · rw [List.mem_singleton.1 hd]
        exact hline }

theorem adds (h : Sourced lines s) {line : Nat} (hline : 0 < line ∧ line ≤ lines.length)
    (hadds : Adds line s t) : Sourced lines t where
  headers := hadds.headers ▸ h.headers
  nodup := hadds.headers ▸ h.nodup
  drawn header hheader := by
    rw [hadds.headers] at hheader
    obtain ⟨p, hp, hmade⟩ := h.drawn header hheader
    exact ⟨p, hadds.draws_iff.2 hp, hmade⟩
  polygons p hp := by
    rw [hadds.headers]
    exact h.polygons p (hadds.draws_iff.1 hp)
  anchor := hadds.anchor ▸ h.anchor
  awaiting := hadds.anchor ▸ h.awaiting
  diagnostics d hd := by
    obtain ⟨warnings, htoList, hwarnings⟩ := hadds.diagnostics
    rw [htoList] at hd
    rcases List.mem_append.1 hd with hd | hd
    · exact h.diagnostics d hd
    · rw [(hwarnings d hd).1]
      exact hline

/-- Drawing anything but a polygon changes no number. -/
theorem mapSchedule (h : Sourced lines s) {f : Schedule → Schedule}
    (hkeeps : ∀ o, s.circuit.schedule.Draws o → (f s.circuit.schedule).Draws o)
    (hpolygons : ∀ p, (f s.circuit.schedule).Draws (.polygon p) →
      s.circuit.schedule.Draws (.polygon p)) : Sourced lines (s.mapSchedule f) :=
  { h with
    drawn := fun header hheader => by
      obtain ⟨p, hp, hmade⟩ := h.drawn header hheader
      exact ⟨p, hkeeps _ hp, hmade⟩
    polygons := fun p hp => h.polygons p (hpolygons p hp) }

theorem drawPolygon (h : Sourced lines s) {headerLine bodyLine : Nat} {madeUp : Bool}
    {style : PolygonStyle} {body : PolygonBody}
    (hpolygon : PolygonOf lines (s.headers.toList.map (·.line))
      { headerLine, bodyLine, madeUpHeader := madeUp, sheet := style.sheet, stroke := style.stroke,
        fill := style.fill, colour := body.colour, corners := body.corners }) :
    Sourced lines (s.drawPolygon headerLine bodyLine madeUp style body) :=
  { h with
    drawn := fun header hheader => by
      obtain ⟨p, hp, hmade⟩ := h.drawn header hheader
      exact ⟨p, Schedule.draws_modifyCurrent.2 (.inl hp), hmade⟩
    polygons := fun p hp => by
      rcases Schedule.draws_modifyCurrent.1 hp with hp | heq
      · exact h.polygons p hp
      · rw [Overlay.polygon.inj heq]
        exact hpolygon }

theorem drawBarePolygon (h : Sourced lines s) {line : Nat} {body : PolygonBody}
    (hline : LineIs lines line fun text =>
      Block.mark (Text.trim text) = .plain ∧ IsPolygon text body) :
    Sourced lines (s.drawBarePolygon line body) := by
  have hbody : LineIs lines line fun text => ∃ body, IsPolygon text body :=
    hline.imp fun text h => ⟨body, h.2⟩
  unfold State.drawBarePolygon
  dsimp only
  by_cases hmade : s.headers.any (·.line == line)
  · rw [if_pos hmade]
    refine h.drawPolygon ⟨hbody, fun h => (by cases h), fun _ => ?_⟩
    obtain ⟨header, hheader, heq⟩ := Array.any_eq_true'.1 hmade
    exact List.mem_map.2 ⟨header, hheader.val, eq_of_beq heq⟩
  · rw [if_neg hmade]
    have hfresh : line ∉ s.headers.toList.map (·.line) := by
      intro hmem
      obtain ⟨header, hheader, rfl⟩ := List.mem_map.1 hmem
      exact hmade (Array.any_eq_true'.2 ⟨header, ⟨hheader⟩, beq_self_eq_true _⟩)
    have hheaders : (s.headers.push ⟨line, body.colour⟩).toList =
        s.headers.toList ++ [⟨line, body.colour⟩] := Array.toList_push
    have hlines : (s.headers.push ⟨line, body.colour⟩).toList.map (·.line) =
        s.headers.toList.map (·.line) ++ [line] := by
      rw [hheaders, List.map_append]
      rfl
    refine ⟨fun header hheader => ?_, ?_, fun header hheader => ?_, fun p hp => ?_, h.anchor,
      h.awaiting, h.diagnostics⟩
    · rcases List.mem_append.1 (hheaders ▸ hheader) with hheader | hheader
      · exact h.headers header hheader
      · rw [List.mem_singleton.1 hheader]
        exact hline.imp fun text h => ⟨h.1, body, h.2, rfl⟩
    · show ((s.headers.push ⟨line, body.colour⟩).toList.map (·.line)).Nodup
      rw [hlines, List.nodup_append]
      refine ⟨h.nodup, List.nodup_singleton _, ?_⟩
      rintro n hn _ hline rfl
      exact hfresh (List.mem_singleton.1 hline ▸ hn)
    · rcases List.mem_append.1 (hheaders ▸ hheader) with hheader | hheader
      · obtain ⟨p, hp, hmade⟩ := h.drawn header hheader
        exact ⟨p, Schedule.draws_modifyCurrent.2 (.inl hp), hmade⟩
      · rw [List.mem_singleton.1 hheader]
        exact ⟨_, Schedule.draws_modifyCurrent.2 (.inr rfl), rfl, rfl⟩
    · show PolygonOf lines ((s.headers.push ⟨line, body.colour⟩).toList.map (·.line)) p
      rw [hlines]
      rcases Schedule.draws_modifyCurrent.1 hp with hp | heq
      · have hold := h.polygons p hp
        exact { hold with made := fun hmade => List.mem_append_left _ (hold.made hmade) }
      · cases heq
        exact ⟨hbody, fun h => (by cases h),
          fun _ => List.mem_append_right _ (List.mem_singleton_self _)⟩

/-- An act of the text keeps to the numbers of its lines. -/
theorem edit (hr : Sourced lines r) (ha : a.Of lines) (h : Sourced lines s)
    (hedit : Edit a r.anchor.line? s t) : Sourced lines t := by
  have hline : 0 < a.number ∧ a.number ≤ lines.length := ⟨ha.number_pos, ha.number_le⟩
  cases hedit with
  | adds hadds => exact h.adds hline hadds
  | release =>
      exact { h with
        anchor := fun number hnumber => absurd hnumber (Option.not_mem_none number)
        awaiting := fun number style h => by cases h }
  | @await w line sheet header =>
      exact { h with
        anchor := fun number hnumber => by
          rw [line, Option.mem_some_iff] at hnumber
          exact hnumber ▸ hline
        awaiting := fun number style (heq : w = .polygon number style) => by
          rw [heq, Anchor.line?, Option.some_inj] at line
          rw [line]
          exact (ha.lineIs (P := fun text => IsPolygonHeader (Text.trim text))
            (header number style heq) not_isPolygonHeader_nil).imp fun text h => h.2 }
  | warn here _ =>
      rcases here with rfl | hstart
      · exact h.report hline _
      · exact h.report (hr.anchor _ hstart) _
  | draw _ other =>
      refine h.mapSchedule (fun o ho => Schedule.draws_modifyCurrent.2 (.inl ho)) fun p hp => ?_
      exact (Schedule.draws_modifyCurrent.1 hp).resolve_right fun heq => other p heq.symm
  | highlightGate =>
      refine h.mapSchedule (fun o ho => Schedule.draws_modify.2 (.inl ho)) fun p hp => ?_
      exact (Schedule.draws_modify.1 hp).resolve_right fun heq => by cases heq.2
  | @drawPolygon _ _ body header polygon =>
      refine h.drawPolygon ⟨?_, fun _ => h.awaiting _ _ header, fun h => (by cases h)⟩
      exact (ha.lineIs polygon (not_isPolygon_nil body)).imp fun text h => ⟨body, h.2⟩
  | @drawBarePolygon body free polygon =>
      exact h.drawBarePolygon (ha.lineIs polygon (not_isPolygon_nil body))
  | declareSheet => exact { h with }
  | describe => exact { h with }

end Sourced

/-- At the end of a run over at least one line every number is that of a line. -/
theorem sourced_finalState (ctx : Context) {lines : List (List Char)} (hne : lines ≠ []) :
    Sourced lines (finalState ctx lines) := by
  have hof {a : Act} (ha : a ∈ course ctx lines) : a.Of lines := by
    rcases of_mem_course ha with ha | rfl
    · exact ha
    · exact ⟨List.length_pos_of_ne_nil hne, Nat.le_refl _⟩
  refine finalState_induction .initial (fun a ha r s t hr hedit hs => hr.edit (hof ha) hs hedit)
    fun a ha r s line p hr hline hs => ?_
  rcases hline with rfl | hstart
  · exact hs.report ⟨(hof ha).number_pos, (hof ha).number_le⟩ p
  · exact hs.report (hr.anchor _ hstart) p

end Build

theorem Schedule.draws_trimEnd {s : Schedule} {o : Overlay} : s.trimEnd.Draws o ↔ s.Draws o := by
  obtain ⟨rest, hrest, hempty⟩ := s.toList_eq_trimEnd_append
  rw [draws_iff, draws_iff, hrest]
  constructor
  · rintro ⟨l, hl, ho⟩
    exact ⟨l, List.mem_append_left _ hl, ho⟩
  · rintro ⟨l, hl, ho⟩
    rcases List.mem_append.1 hl with hl | hl
    · exact ⟨l, hl, ho⟩
    · rw [(Layer.isEmpty_iff.1 (hempty l hl)).2.2] at ho
      exact absurd ho (Array.not_mem_empty o)

namespace Source

end Source

namespace Parsed

/-- The lines of the text. -/
def lines (p : Parsed) : List (List Char) := Text.splitWhere (· == '\n') p.text.toList

variable {source : List (List Char)} {s : State}

/-- The lines that the headers of a state are put in front of. -/
def insertedBy (s : State) : List Nat := s.headers.toList.map (·.line)

theorem inserted_pos (h : Sourced source s) : ∀ n ∈ insertedBy s, 0 < n := by
  intro n hn
  obtain ⟨header, hheader, rfl⟩ := List.mem_map.1 hn
  exact (h.headers header hheader).1

end Parsed

end StimOverlay
