import StimOverlay.Proofs.Circuit.SheetEntries
import StimOverlay.Proofs.Directive.WrittenDirectives
import StimOverlay.Proofs.Run.AwaitingDirectives
import StimOverlay.Proofs.Run.ErrorsLast
import StimOverlay.Proofs.Run.RelocatedLines
import StimOverlay.Proofs.Source.PragmaMarkers

/-! Reparsed text. The text of a parse without errors is a text of the same circuit: a run over its lines,
among which the made-up headers have been inserted, goes through the states of the first run, with every
line where it is found now. A header is read in front of its polygon each time the polygon is drawn, as it
was made up each time: nothing waited for the polygon then, so nothing does now. -/

namespace StimOverlay

open Build

namespace Build

/-- The acts in the text with headers inserted: a header stands in front of the line that it is for. -/
def Act.withHeaders (headers : List MadeUpHeader) (a : Act) : List Act :=
  let shift := Parsed.shiftLine (headers.map (·.line))
  match a with
  | .line number text =>
      (headers.filter (·.line == number)).map (fun h => .line (shift number - 1) h.text.toList) ++
        [.line (shift number) text]
  | .structural number => [.structural (shift number)]
  | .fault number p => [.fault (shift number) p]

end Build

namespace Block

open Parsed

variable {headers : List MadeUpHeader}

/-- No header is made up for a line that is not a plain one. -/
theorem notMem_of_mark {number k : Nat} {lines : List (List Char)} {text : List Char}
    (hplain : ∀ k text, lines[k]? = some text → number + k ∈ headers.map (·.line) →
      mark (Text.trim text) = .plain) (hline : lines[k]? = some text)
    (hmark : mark (Text.trim text) ≠ .plain) : number + k ∉ headers.map (·.line) :=
  fun hmem => hmark (hplain k text hline hmem)

theorem flatMap_replicate_flatten {α β : Type} (f : α → List β) (times : Nat) (round : List α) :
    ((List.replicate times round).flatten).flatMap f =
      (List.replicate times (round.flatMap f)).flatten := by
  rw [List.flatMap_def, List.map_flatten, List.flatten_flatten, List.map_map, List.map_replicate]
  rfl

/-- The headers only add lines to those of blocks, if they are for lines of blocks. -/
theorem Enacts.withHeaders {number : Nat} {lines : List (List Char)} {acts : List Act}
    (h : Enacts number lines acts) {before : Nat} (hnumber : number = before + 1)
    (hnodup : (headers.map (·.line)).Nodup)
    (hplain : ∀ k text, lines[k]? = some text → number + k ∈ headers.map (·.line) →
      mark (Text.trim text) = .plain) :
    Enacts (shiftLine (headers.map (·.line)) before + 1) (insertHeaders headers number lines)
      (acts.flatMap (Act.withHeaders headers)) := by
  induction h generalizing before with
  | nil number => exact .nil _
  | @line number text rest acts plain tail ih =>
      subst hnumber
      have hrest := ih rfl fun k line hline hmem =>
        hplain (k + 1) line hline (by rwa [Nat.add_right_comm, Nat.add_assoc] at hmem)
      rw [List.flatMap_cons]
      by_cases hmem : before + 1 ∈ headers.map (·.line)
      · obtain ⟨header, hheader, hline⟩ := List.mem_map.1 hmem
        have hfilter := filter_line_eq_singleton hnodup hheader
        have hshift := shiftLine_pred hnodup hmem (Nat.succ_pos before)
        rw [Nat.add_sub_cancel] at hshift
        rw [hline] at hfilter
        rw [insertHeaders, Act.withHeaders, hfilter, hshift]
        rw [hshift] at hrest
        exact .line header.mark_text (.line plain hrest)
      · rw [insertHeaders_cons_of_notMem hmem, Act.withHeaders, filter_line_eq_nil hmem,
          shiftLine_succ_of_notMem hmem]
        rw [shiftLine_succ_of_notMem hmem] at hrest
        exact .line plain hrest
  | @repetition number times header close body rest round acts opening inside closing tail ihi iht =>
      subst hnumber
      have hheader : before + 1 ∉ headers.map (·.line) :=
        notMem_of_mark (k := 0) hplain rfl (by simp [opening])
      have hclose : before + 1 + body.length + 1 ∉ headers.map (·.line) :=
        notMem_of_mark (k := body.length + 1) hplain
          (show _ = some close by simp) (by simp [closing])
      have hround := ihi rfl fun k line hline hmem => by
        refine hplain (k + 1) line ?_ (by rwa [Nat.add_right_comm, Nat.add_assoc] at hmem)
        rw [List.getElem?_cons_succ, List.getElem?_append_left (List.getElem?_eq_some_iff.1 hline).1]
        exact hline
      have hrest := @iht (before + 1 + body.length + 1) rfl fun k line hline hmem => by
        refine hplain (body.length + 2 + k) line ?_ (by rwa [← Nat.add_assoc])
        rw [show body.length + 2 + k = body.length + (k + 1) + 1 by omega, List.getElem?_cons_succ,
          List.getElem?_append_right (Nat.le_add_right _ _), Nat.add_sub_cancel_left]
        exact hline
      have hlength := length_insertHeaders_add headers (before + 1) body
      rw [insertHeaders_cons_of_notMem hheader, insertHeaders_append,
        show before + 1 + 1 + body.length = before + 1 + body.length + 1 by omega,
        insertHeaders_cons_of_notMem hclose, List.flatMap_append, List.flatMap_cons, List.flatMap_cons,
        flatMap_replicate_flatten]
      rw [shiftLine_succ_of_notMem hheader] at hround
      rw [shiftLine_succ_of_notMem hheader, Nat.add_comm] at hlength
      rw [shiftLine_succ_of_notMem hclose, ← hlength] at hrest
      dsimp only [Act.withHeaders, List.singleton_append]
      rw [shiftLine_succ_of_notMem hheader, shiftLine_succ_of_notMem hclose, ← hlength]
      exact .repetition opening hround closing hrest

end Block

namespace Build

variable {ctx : Context} {s t : State} {a : Act}

theorem buildLine_header (ctx : Context) (h : MadeUpHeader) (hfree : s.anchor = .free)
    (hsheet : s.circuit.HasSheet defaultSheet) (line : Nat) :
    s.buildLine ctx line h.text.toList = .ok { s with anchor := .polygon line h.style } := by
  obtain ⟨hkind, hname, hstroke, hfill⟩ := h.read_text
  rw [buildLine_directive h.trim_text h.isTrivia_text h.isDirective_text hfree,
    apply_polygon hkind hname hsheet, hstroke, hfill]

/-- A polygon that nothing waits for is drawn with a header that is made up. -/
theorem eq_drawBarePolygon {text : List Char} {body : PolygonBody} (h : IsPolygon text body)
    (hfree : s.anchor = .free) {line : Nat} (ht : s.buildLine ctx line text = .ok t) :
    t = State.drawBarePolygon { s with contentSeen := true } line body := by
  rw [buildLine_polygon h] at ht
  obtain ⟨circuit, diagnostics, anchor, contentSeen, record, detectors, headers⟩ := s
  subst hfree
  cases ht
  rfl

theorem exists_header_drawBarePolygon (s : State) (line : Nat) (body : PolygonBody) :
    ∃ h ∈ (s.drawBarePolygon line body).headers.toList, h.line = line := by
  unfold State.drawBarePolygon
  dsimp only
  split_ifs with hmade
  · obtain ⟨h, hmem, hline⟩ := Array.any_eq_true'.1 hmade
    exact ⟨h, hmem.val, eq_of_beq hline⟩
  · exact ⟨⟨line, body.colour⟩, Array.mem_toList_iff.2 Array.mem_push_self, rfl⟩

/-- Behind its header a polygon is drawn as if the header had been made up. -/
theorem buildLine_behind_header {text : List Char} {body : PolygonBody} (h : IsPolygon text body)
    (hfree : s.anchor = .free) {line : Nat} (ht : s.buildLine ctx line text = .ok t) (f : Nat → Nat) :
    State.buildLine { s.relocate f with
      anchor := .polygon (f line - 1) (MadeUpHeader.style ⟨line, body.colour⟩) } ctx (f line) text =
        .ok (t.relocate f) := by
  rw [buildLine_polygon h, eq_drawBarePolygon h hfree ht, ← State.relocate_drawBarePolygon,
    State.relocate, hfree]
  rfl

theorem edited_of_perform (h : s.perform ctx a = .ok t) : Edited a s.anchor.line? s t := by
  cases a with
  | line number text =>
      have hedited := editing_perform ctx s (a := .line number text) trivial
      rwa [h] at hedited
  | structural number =>
      have hedited := editing_perform ctx s (a := .structural number) trivial
      rwa [h] at hedited
  | fault number p => cases h

theorem sheeted_of_perform (hs : Sheeted s) (h : s.perform ctx a = .ok t) : Sheeted t := by
  have hedited := edited_of_perform h
  clear h
  induction hedited with
  | refl => exact hs
  | tail _ hedit ih => exact ih.edit hedit

/-- Headers are made up only by polygons that nothing waits for. -/
theorem Edit.headers {start : Option Nat} (h : Edit a start s t) :
    ∃ made, t.headers.toList = s.headers.toList ++ made ∧
      ∀ x ∈ made, x.line = a.number ∧ start = none ∧ ∃ body, IsPolygon a.text body := by
  have hnone (u : State) : ∃ made, u.headers.toList = u.headers.toList ++ made ∧
      ∀ x ∈ made, x.line = a.number ∧ start = none ∧ ∃ body, IsPolygon a.text body :=
    ⟨[], (List.append_nil _).symm, fun x hx => absurd hx List.not_mem_nil⟩
  cases h with
  | adds hadds =>
      rw [hadds.headers]
      exact hnone s
  | @drawBarePolygon body free polygon =>
      unfold State.drawBarePolygon
      dsimp only
      split_ifs
      · exact hnone s
      · refine ⟨[⟨a.number, body.colour⟩], Array.toList_push, fun x hx => ?_⟩
        rw [List.mem_singleton.1 hx]
        exact ⟨rfl, free, body, polygon⟩
  | _ => exact hnone s

theorem Edited.headers {start : Option Nat} (h : Edited a start s t) :
    ∃ made, t.headers.toList = s.headers.toList ++ made ∧
      ∀ x ∈ made, x.line = a.number ∧ start = none ∧ ∃ body, IsPolygon a.text body := by
  induction h with
  | refl => exact ⟨[], (List.append_nil _).symm, fun x hx => absurd hx List.not_mem_nil⟩
  | tail _ hedit ih =>
      obtain ⟨made, hmade, hall⟩ := ih
      obtain ⟨more, hmore, hall'⟩ := hedit.headers
      refine ⟨made ++ more, by rw [hmore, hmade, List.append_assoc], fun x hx => ?_⟩
      exact (List.mem_append.1 hx).elim (hall x) (hall' x)

/-- Also an act that halts makes up headers only for a polygon that nothing waits for. -/
theorem headers_of_leave (ctx : Context) (s : State) (ha : a.IsSevere) :
    ∃ made, (leave (s.perform ctx a)).headers.toList = s.headers.toList ++ made ∧
      ∀ x ∈ made, x.line = a.number ∧ s.anchor.line? = none ∧ ∃ body, IsPolygon a.text body := by
  have hediting := editing_perform ctx s ha
  cases hstep : s.perform ctx a with
  | ok t =>
      rw [hstep] at hediting
      exact Edited.headers hediting
  | error e =>
      rw [hstep] at hediting
      obtain ⟨t, line, p, hedited, -, -, he⟩ := hediting
      rw [leave, he]
      exact Edited.headers (t := t) hedited

theorem isSevere_of_perform (h : s.perform ctx a = .ok t) : a.IsSevere := by
  cases a with
  | fault number p => cases h
  | _ => trivial

/-- Nothing ever waits in front of a line that a run makes up a header for. -/
theorem headers_of_run (ctx : Context) {W : Nat → Bool} {acts : List Act}
    (hsevere : ∀ a ∈ acts, a.IsSevere) (hleast : Along (AtLeast W) s.waits acts) :
    ∃ made, (leave (acts.foldlM (State.perform ctx) s)).headers.toList = s.headers.toList ++ made ∧
      ∀ x ∈ made, W x.line = false := by
  induction acts generalizing s with
  | nil => exact ⟨[], (List.append_nil _).symm, fun x hx => absurd hx List.not_mem_nil⟩
  | cons a acts ih =>
      obtain ⟨ha, hacts⟩ := List.forall_mem_cons.1 hsevere
      obtain ⟨made, hmade, hall⟩ := headers_of_leave ctx s ha
      have hfree : ∀ x ∈ made, W x.line = false := by
        intro x hx
        obtain ⟨hline, hnone, body, hbody⟩ := hall x hx
        cases a with
        | line number text =>
            have hwaits : s.waits = false := by rw [State.waits, hnone, Option.isSome_none]
            have hact : W number = true → s.waits = true := hleast.1
            rw [hwaits] at hact
            rw [hline, Act.number]
            exact Bool.eq_false_iff.2 fun hW => by cases hact hW
        | structural number => exact absurd hbody (not_isPolygon_nil body)
        | fault number p => exact absurd hbody (not_isPolygon_nil body)
      rw [List.foldlM_cons]
      cases hstep : s.perform ctx a with
      | ok u =>
          rw [hstep, leave] at hmade
          obtain ⟨more, hmore, hall'⟩ := ih hacts (waits_of_perform hstep ▸ hleast.2)
          refine ⟨made ++ more, ?_, List.forall_mem_append.2 ⟨hfree, hall'⟩⟩
          rw [← List.append_assoc, ← hmade]
          exact hmore
      | error e =>
          rw [hstep] at hmade
          exact ⟨made, hmade, hfree⟩

theorem isSevere_of_performed {acts : List Act} (h : acts.foldlM (State.perform ctx) s = .ok t) :
    ∀ a ∈ acts, a.IsSevere := by
  induction acts generalizing s with
  | nil => exact fun a ha => absurd ha List.not_mem_nil
  | cons a acts ih =>
      obtain ⟨u, hstep, h⟩ := exists_ok_of_bind h
      exact List.forall_mem_cons.2 ⟨isSevere_of_perform hstep, ih h⟩

theorem headers_of_performed {acts : List Act} (h : acts.foldlM (State.perform ctx) s = .ok t) :
    s.headers.toList ⊆ t.headers.toList := by
  induction acts generalizing s with
  | nil =>
      cases h
      exact List.Subset.refl _
  | cons a acts ih =>
      obtain ⟨u, hstep, h⟩ := exists_ok_of_bind h
      obtain ⟨made, hmade, -⟩ := headers_of_leave ctx s (isSevere_of_perform hstep)
      rw [hstep, leave] at hmade
      exact List.Subset.trans (hmade ▸ List.subset_append_left _ _) (ih h)

/-- Nothing ever waits in front of a line that a header is made up for. -/
theorem free_of_performed {W : Nat → Bool} {acts : List Act}
    (h : acts.foldlM (State.perform ctx) s = .ok t) (hpaced : Along (Paced W) s.waits acts)
    (hs : ∀ x ∈ s.headers.toList, W x.line = false) : ∀ x ∈ t.headers.toList, W x.line = false := by
  obtain ⟨made, hmade, hfree⟩ := headers_of_run ctx (isSevere_of_performed h)
    (hpaced.imp fun _ _ => Paced.atLeast)
  rw [h, leave] at hmade
  rw [hmade]
  exact List.forall_mem_append.2 ⟨hs, hfree⟩

/-- Headers for lines of a text that are polygons, none of which anything waits for. -/
structure Heads (lines : List (List Char)) (W : Nat → Bool) (headers : List MadeUpHeader) : Prop where
  nodup : (headers.map (·.line)).Nodup
  polygon : ∀ h ∈ headers, LineIs lines h.line fun text =>
    Block.mark (Text.trim text) = .plain ∧ ∃ body, IsPolygon text body ∧ body.colour = h.colour
  free : ∀ h ∈ headers, W h.line = false

variable {lines : List (List Char)} {W : Nat → Bool} {headers : List MadeUpHeader}

theorem free_of_waits (h : s.waits = false) : s.anchor = .free := by
  cases hanchor : s.anchor with
  | free => rfl
  | _ =>
      rw [State.waits, hanchor] at h
      cases h

variable {f : Nat → Nat}

/-- A polygon and its header in front of it. -/
theorem perform_headed {header : MadeUpHeader} {text : List Char} {body : PolygonBody}
    (hbody : IsPolygon text body) (hcolour : body.colour = header.colour) (hfree : s.anchor = .free)
    (hs : Sheeted s) (h : s.buildLine ctx header.line text = .ok t) (f : Nat → Nat) :
    [Act.line (f header.line - 1) header.text.toList, .line (f header.line) text].foldlM
      (State.perform ctx) (s.relocate f) = .ok (t.relocate f) := by
  have hfree' : (s.relocate f).anchor = .free := congrArg (Anchor.relocate f) hfree
  have hread := buildLine_header ctx header hfree' hs.default (f header.line - 1)
  have hbehind := buildLine_behind_header hbody hfree h f
  rw [show MadeUpHeader.mk header.line body.colour = header by rw [hcolour]] at hbehind
  have hlast : [Act.line (f header.line) text].foldlM (State.perform ctx)
      { s.relocate f with anchor := .polygon (f header.line - 1) header.style } =
        .ok (t.relocate f) := by
    rw [List.foldlM_cons, State.perform, hbehind]
    rfl
  rw [List.foldlM_cons, State.perform, hread]
  exact hlast

/-- A line for which no header has been made up. -/
theorem buildLine_unheaded {number : Nat} {text : List Char} (h : s.buildLine ctx number text = .ok t)
    (hmade : t.headers.toList ⊆ headers) (hmem : number ∉ headers.map (·.line)) (f : Nat → Nat) :
    (s.relocate f).buildLine ctx (f number) text = .ok (t.relocate f) := by
  have hline : (s.relocate f).buildLine ctx (f number) text =
      carry f (·.relocate f) (s.buildLine ctx number text) :=
    State.relocate_buildLine fun hfree body hbody => by
      rw [eq_drawBarePolygon hbody hfree h] at hmade
      obtain ⟨x, hx, rfl⟩ := exists_header_drawBarePolygon { s with contentSeen := true } number body
      exact hmem (List.mem_map_of_mem (hmade hx))
  rw [hline, h]
  rfl

/-- One act over the text with headers. -/
theorem perform_withHeaders (hf : f = Parsed.shiftLine (headers.map (·.line)))
    (hheads : Heads lines W headers) (ha : a.Of lines) (hpaced : Paced W s.waits a) (hs : Sheeted s)
    (h : s.perform ctx a = .ok t) (hmade : t.headers.toList ⊆ headers) :
    (a.withHeaders headers).foldlM (State.perform ctx) (s.relocate f) = .ok (t.relocate f) := by
  cases a with
  | line number text =>
      rw [Act.withHeaders, ← hf]
      by_cases hmem : number ∈ headers.map (·.line)
      · obtain ⟨header, hheader, rfl⟩ := List.mem_map.1 hmem
        obtain ⟨-, text', htext', -, body, hbody, hcolour⟩ := hheads.polygon header hheader
        obtain rfl : text = text' := Option.some.inj (ha.2.1.symm.trans htext')
        have hwaits : W header.line = s.waits := hpaced
        have hfree : s.anchor = .free := free_of_waits (hwaits.symm.trans (hheads.free header hheader))
        rw [Parsed.filter_line_eq_singleton hheads.nodup hheader]
        exact perform_headed hbody hcolour hfree hs h f
      · rw [Parsed.filter_line_eq_nil hmem, List.map_nil, List.nil_append, List.foldlM_cons,
          State.perform, buildLine_unheaded h hmade hmem f]
        rfl
  | structural number =>
      have hresolve : (s.relocate f).resolve (f number) .other =
          carry f (·.relocate f) (s.resolve number .other) :=
        State.relocate_resolve fun _ _ h => by cases h
      rw [show s.resolve number .other = .ok t from h] at hresolve
      rw [Act.withHeaders, ← hf, List.foldlM_cons, State.perform, hresolve]
      rfl
  | fault number p => cases h

/-- A run over the text with headers goes through the same states with new lines. -/
theorem foldlM_withHeaders (hf : f = Parsed.shiftLine (headers.map (·.line)))
    (hheads : Heads lines W headers) {acts : List Act} (hof : ∀ a ∈ acts, a.Of lines)
    (hpaced : Along (Paced W) s.waits acts) (hs : Sheeted s)
    (h : acts.foldlM (State.perform ctx) s = .ok t) (hmade : t.headers.toList ⊆ headers) :
    (acts.flatMap (Act.withHeaders headers)).foldlM (State.perform ctx) (s.relocate f) =
      .ok (t.relocate f) := by
  induction acts generalizing s with
  | nil =>
      cases h
      rfl
  | cons a acts ih =>
      obtain ⟨hact, hof⟩ := List.forall_mem_cons.1 hof
      obtain ⟨u, hstep, h⟩ := exists_ok_of_bind h
      have hmade' : u.headers.toList ⊆ headers := List.Subset.trans (headers_of_performed h) hmade
      rw [List.flatMap_cons, List.foldlM_append,
        perform_withHeaders hf hheads hact hpaced.1 hs hstep hmade']
      exact ih hof (waits_of_perform hstep ▸ hpaced.2) (sheeted_of_perform hs hstep) h

theorem relocate_start (f : Nat → Nat) : State.relocate f {} = {} := by
  simp [State.relocate, Circuit.relocate, Circuit.empty, Schedule.map, Schedule.empty,
    Layer.relocate, Layer.empty, Anchor.relocate]

/-- A run that is not halted ends over the text with its headers where it ends without them, all lines
being where they are found now. -/
theorem runLines_insertHeaders (h : runLines ctx lines = .ok t) :
    runLines ctx (Parsed.insertHeaders t.headers.toList 1 lines) =
      .ok (t.relocate (Parsed.shiftLine (Parsed.insertedBy t))) := by
  rcases eq_or_ne lines [] with rfl | hne
  · cases h
    rw [relocate_start]
    rfl
  · have hfinal : finalState ctx lines = t := by rw [finalState, h]
    have hsourced : Sourced lines t := hfinal ▸ sourced_finalState ctx hne
    obtain ⟨u, hblocks, hresolve⟩ := exists_ok_of_bind h
    obtain rfl := resolve_other_eq_ok hresolve
    have henacts := Block.enacts_of_runBlocks hblocks
    rw [runBlocks_eq_foldlM] at hblocks
    have hpaced := (henacts.along_paced (W := fun n => (lines.take (n - 1)).foldl lineWaiting false)
      (along_calm hblocks) fun k _ => by rw [Nat.add_sub_cancel_left]; rfl).1
    have hheads : Heads lines _ t.headers.toList := ⟨hsourced.nodup, hsourced.headers,
      free_of_performed hblocks hpaced fun x hx => absurd hx List.not_mem_nil⟩
    have hrun := foldlM_withHeaders rfl hheads (fun a ha => Block.of_mem_actsOf_ofLines ha) hpaced
      .initial hblocks (List.Subset.refl _)
    have henacts' := henacts.withHeaders rfl hsourced.nodup fun k text hline hmem => by
      obtain ⟨header, hheader, heq⟩ := List.mem_map.1 hmem
      obtain ⟨-, text', htext', hplain, -⟩ := hsourced.headers header hheader
      rw [heq, Nat.add_sub_cancel_left, hline] at htext'
      rwa [Option.some.inj htext']
    have hzero : Parsed.shiftLine (t.headers.toList.map (·.line)) 0 = 0 :=
      Parsed.shiftLine_zero (Parsed.inserted_pos hsourced)
    rw [hzero, Nat.zero_add] at henacts'
    rw [henacts'.eq_actsOf, relocate_start, ← runBlocks_eq_foldlM] at hrun
    have hfree : (t.relocate (Parsed.shiftLine (Parsed.insertedBy t))).anchor = .free :=
      congrArg (Anchor.relocate _) (anchor_of_resolve hresolve)
    rw [runLines, hrun]
    exact resolve_other_of_free hfree _

/-- A run that reports no error is not halted. -/
theorem exists_ok_of_noErrors {text : String} (h : (parseWith ctx text).hasErrors = false) :
    ∃ t, runLines ctx (Source.normalize text.toList) = .ok t := by
  rcases diagnostics_finalState ctx (Source.normalize text.toList) with
    ⟨hok, -⟩ | ⟨-, warnings, d, hds, hd, -⟩
  · cases hrun : runLines ctx (Source.normalize text.toList) with
    | ok t => exact ⟨t, rfl⟩
    | error e =>
        rw [hrun] at hok
        cases hok
  · obtain ⟨shifted, hshifted, heq⟩ := Parsed.exists_shifted_diagnostics
      (Source.normalize text.toList) (finalState ctx (Source.normalize text.toList))
    rw [Parsed.hasErrors, List.any_eq_false] at h
    refine absurd ((hshifted d).trans hd) (h (shifted d) ?_)
    rw [parseWith, heq, hds]
    exact List.mem_map_of_mem (List.mem_append_right _ (List.mem_singleton_self d))

end Build

namespace Parsed

variable {source : List (List Char)} {s : State}

theorem shiftOverlay_relocate (f : Nat → Nat) (o : Overlay) :
    shiftOverlay [] (o.relocate f) = o.relocate f := by
  cases o <;> rfl

theorem reread_shiftOverlay (inserted : List Nat) (o : Overlay) :
    (shiftOverlay inserted o).reread (shiftLine inserted) = o.relocate (shiftLine inserted) := by
  cases o <;> rfl

theorem reread_circuit_ofState : (ofState source s).circuit.reread (shiftLine (insertedBy s)) =
    s.circuit.finish.relocate (shiftLine (insertedBy s)) := by
  simp only [ofState, Circuit.reread, Circuit.relocate, Schedule.map, Array.map_map,
    Function.comp_def, Layer.reread, Layer.relocate, reread_shiftOverlay, insertedBy]

/-- The outcome of the relocated state, all headers of which are in the text. -/
theorem ofState_relocate :
    ofState (insertHeaders s.headers.toList 1 source) (s.relocate (shiftLine (insertedBy s))) =
      { ofState source s with
        circuit := (ofState source s).circuit.reread (shiftLine (insertedBy s)) } := by
  have hcircuit : (ofState (insertHeaders s.headers.toList 1 source)
      (s.relocate (shiftLine (insertedBy s)))).circuit =
        (ofState source s).circuit.reread (shiftLine (insertedBy s)) := by
    have hfinish : (s.relocate (shiftLine (insertedBy s))).circuit.finish =
        s.circuit.finish.relocate (shiftLine (insertedBy s)) := Circuit.relocate_finish
    rw [reread_circuit_ofState, ofState, hfinish]
    simp only [Circuit.relocate, Schedule.map, Array.map_map, Function.comp_def, Layer.relocate,
      State.relocate, List.map_nil, shiftOverlay_relocate]
  have hdiagnostics : (ofState (insertHeaders s.headers.toList 1 source)
      (s.relocate (shiftLine (insertedBy s)))).diagnostics = (ofState source s).diagnostics := by
    simp only [ofState, State.relocate, Array.toList_map, List.map_map, Function.comp_def,
      List.map_nil, shiftLine_nil, insertedBy]
  have htext : (ofState (insertHeaders s.headers.toList 1 source)
      (s.relocate (shiftLine (insertedBy s)))).text = (ofState source s).text := by
    simp only [ofState, State.relocate, insertHeaders_nil]
  dsimp only
  rw [← hcircuit, ← hdiagnostics, ← htext]

/-- The text of a parse without errors denotes its circuit: when it is parsed, the outcome is the same, except
that every header has been read now, and that the lines of operations and of overlays other than polygons are
those of the text. -/
theorem parseWith_text (ctx : Context) (text : String)
    (hfixed : Text.joinWith ['\n'] (Source.normalize text.toList) = text.toList)
    (hsound : (parseWith ctx text).hasErrors = false) :
    let shift := shiftLine (insertedBy (finalState ctx (Source.normalize text.toList)))
    parseWith ctx (parseWith ctx text).text =
      { parseWith ctx text with circuit := (parseWith ctx text).circuit.reread shift } := by
  intro shift
  obtain ⟨s, hrun⟩ := exists_ok_of_noErrors hsound
  obtain rfl : finalState ctx (Source.normalize text.toList) = s := by rw [finalState, hrun]
  have hnormal : Source.normalize (parseWith ctx text).text.toList = insertHeaders
      (finalState ctx (Source.normalize text.toList)).headers.toList 1
        (Source.normalize text.toList) := by
    rw [parseWith, ofState, String.toList_ofList]
    exact normalize_insertHeaders hfixed _
  have hfinal : finalState ctx (insertHeaders
      (finalState ctx (Source.normalize text.toList)).headers.toList 1
        (Source.normalize text.toList)) =
      (finalState ctx (Source.normalize text.toList)).relocate shift := by
    rw [finalState, runLines_insertHeaders hrun]
  rw [parseWith, hnormal, hfinal]
  exact ofState_relocate

/-- A polygon without a header in a repetition, and an operation behind it. -/
theorem reparsed_repeated_polygon :
    let text := "REPEAT 2 \x7b\nPOLYGON(1,0,0,0.5) 0 1\nTICK\n\x7d\nM 0"
    let s := finalState .standard (Source.normalize text.toList)
    insertedBy s = [2] ∧ parseWith .standard (parseWith .standard text).text =
      { parseWith .standard text with
        circuit := (parseWith .standard text).circuit.reread (shiftLine (insertedBy s)) } :=
  ⟨by decide +kernel, parseWith_text .standard _ (by decide +kernel) (by decide +kernel)⟩

end Parsed

end StimOverlay
