import StimOverlay.Proofs.Layer.LayeredRuns
import StimOverlay.Proofs.Run.FirstVisits

/-! Lenient runs. How serious an unknown directive is decides only whether a run is halted there. Up to the
first unknown directive two runs that differ in nothing else are the same; the strict one ends at it, and
the lenient one goes on with a warning. What the strict run leaves behind is the beginning of what the
lenient one does: operations are only added, and no header that is made up later moves a line that has been
reported. -/

namespace StimOverlay

namespace Build

theorem operations_prefix_place (s : Schedule) (op : Operation) :
    s.operations.flatten <+: (s.place op).operations.flatten := by
  unfold Schedule.place Layer.put
  split_ifs
  · change _ <+: (s.modifyCurrent (·.mark op)).operations.flatten
    rw [Schedule.modifyCurrent_eq_modify, Schedule.operations_modify_mark]
  · cases s.current.collision? op with
    | none => simp [Schedule.operations_eq, Layer.insert]
    | some q => simp [Schedule.operations]

theorem Tape.operations_prefix_move (ctx : Context) (t : Tape) (m : Move) :
    t.schedule.operations.flatten <+: (t.move ctx m).schedule.operations.flatten := by
  cases m with
  | tick => simp [Tape.move, Schedule.operations]
  | place op => exact operations_prefix_place t.schedule op
  | mark op => rw [Tape.move, Schedule.modifyCurrent_eq_modify, Schedule.operations_modify_mark]
  | detector tag line numbers =>
      exact (operations_markAll t _).symm ▸ List.prefix_rfl
  | observable index tag line numbers =>
      exact (operations_markAll t _).symm ▸ List.prefix_rfl

theorem Tape.operations_prefix_moves (ctx : Context) (t : Tape) (ms : List Move) :
    t.schedule.operations.flatten <+: (ms.foldl (move ctx) t).schedule.operations.flatten := by
  induction ms generalizing t with
  | nil => exact List.prefix_rfl
  | cons m ms ih => exact (t.operations_prefix_move ctx m).trans (ih (t.move ctx m))

namespace State

/-- All operations, in the order of the layers. -/
def operations (s : State) : List Operation := s.circuit.schedule.operations.flatten

theorem operations_tape (s : State) : s.tape.schedule.operations.flatten = s.operations := by
  simp [tape, operations, Schedule.operations, Function.comp_def, Layer.bare]

theorem operations_prefix_after (ctx : Context) (s : State) (a : Act) :
    s.operations <+: (s.after ctx a).operations := by
  rw [← operations_tape, ← operations_tape, tape_after]
  exact Tape.operations_prefix_moves ctx s.tape _

theorem operations_prefix_leave (ctx : Context) (acts : List Act) (s : State) :
    s.operations <+: (leave (acts.foldlM (perform ctx) s)).operations := by
  rw [leave_foldlM]
  generalize performed ctx s acts = done
  induction done generalizing s with
  | nil => exact List.prefix_rfl
  | cons a done ih => exact (s.operations_prefix_after ctx a).trans (ih (s.after ctx a))

end State

/-- The layers that a parse drops hold no operations. -/
theorem operations_parseWith (ctx : Context) (text : String) :
    (parseWith ctx text).circuit.layers.flatMap (·.operations.toList) =
      (finalState ctx (Source.normalize text.toList)).operations := by
  obtain ⟨inserted, hlayers⟩ := layers_parseWith ctx text
  obtain ⟨rest, hrest, hempty⟩ := (draft ctx text).schedule.toList_eq_trimEnd_append
  have hnone : rest.flatMap (·.operations.toList) = [] := by
    rw [List.flatMap_eq_nil_iff]
    intro l hl
    rw [(Layer.isEmpty_iff.1 (hempty l hl)).1]
  rw [hlayers, List.flatMap_map, State.operations, Schedule.operations, ← List.flatMap_def]
  change _ = (draft ctx text).schedule.toList.flatMap _
  rw [hrest, List.flatMap_append, hnone, List.append_nil]

/-- The line is a directive of no known kind. -/
def IsUnknown (text : List Char) : Prop :=
  State.isTrivia (Text.trim text) = false ∧ Source.isDirective (Text.trim text) = true ∧
    (Directive.read (Text.trim text)).kind = .unknown

/-- The problem with a directive of no known kind. -/
def unknownProblem (severity : Severity) (text : List Char) : Problem :=
  .directiveUnknown (Directive.read (Text.trim text)).body severity

variable (catalog : Catalog) (severity other : Severity) (s : State) (line : Nat)

theorem applyChunks_severity (i : Instruction) (gate : Gate) (chunks : List (List Target)) :
    s.applyChunks ⟨catalog, severity⟩ line i gate chunks =
      s.applyChunks ⟨catalog, other⟩ line i gate chunks := by
  induction chunks generalizing s with
  | nil => rfl
  | cons chunk rest ih =>
      unfold State.applyChunks
      refine bind_congr fun r => ?_
      obtain ⟨touched, t⟩ := r
      dsimp only
      rw [ih]

theorem buildInstruction_severity (source : List Char) (i : Instruction) :
    s.buildInstruction ⟨catalog, severity⟩ line source i =
      s.buildInstruction ⟨catalog, other⟩ line source i := by
  have hgate (gate : Gate) (swapped : Bool) :
      s.buildGate ⟨catalog, severity⟩ line i gate swapped =
        s.buildGate ⟨catalog, other⟩ line i gate swapped := by
    simp only [State.buildGate, applyChunks_severity catalog severity other]
  simp only [State.buildInstruction, State.build, State.buildNamed, hgate]
  rfl

theorem apply_severity {d : Directive} (hknown : d.kind ≠ .unknown) :
    s.apply ⟨catalog, severity⟩ line d = s.apply ⟨catalog, other⟩ line d := by
  unfold State.apply
  cases hkind : d.kind with
  | unknown => exact absurd hkind hknown
  | _ => rfl

/-- The severity bears on unknown directives only. -/
theorem buildLine_severity {text : List Char} (hknown : ¬IsUnknown text) :
    s.buildLine ⟨catalog, severity⟩ line text = s.buildLine ⟨catalog, other⟩ line text := by
  unfold State.buildLine
  dsimp only
  split_ifs with htrivia hdirective
  · rfl
  · refine bind_congr fun t => apply_severity catalog severity other t line fun hkind => ?_
    exact hknown ⟨Bool.eq_false_iff.2 htrivia, hdirective, hkind⟩
  · cases Instruction.read (Text.trim text) with
    | error fault => rfl
    | ok i => exact buildInstruction_severity catalog severity other _ line _ i

/-- An unknown directive is no line that another directive could wait for. -/
theorem buildLine_unknown {text : List Char} (h : IsUnknown text) :
    s.buildLine ⟨catalog, severity⟩ line text =
      s.resolve line .other >>= (State.judge · line (unknownProblem severity text)) := by
  obtain ⟨htrivia, hdirective, hkind⟩ := h
  unfold State.buildLine
  dsimp only
  rw [htrivia, if_neg Bool.false_ne_true, if_pos hdirective]
  refine bind_congr fun t => ?_
  rw [State.apply, hkind]
  rfl

def Act.IsUnknown : Act → Prop
  | .line _ text => Build.IsUnknown text
  | _ => False

theorem perform_severity {a : Act} (hknown : ¬a.IsUnknown) :
    s.perform ⟨catalog, severity⟩ a = s.perform ⟨catalog, other⟩ a := by
  cases a with
  | line number text => exact buildLine_severity catalog severity other s number hknown
  | structural number => rfl
  | fault number p => rfl

theorem foldlM_severity {acts : List Act} (hknown : ∀ a ∈ acts, ¬a.IsUnknown) :
    acts.foldlM (State.perform ⟨catalog, severity⟩) s =
      acts.foldlM (State.perform ⟨catalog, other⟩) s := by
  induction acts generalizing s with
  | nil => rw [List.foldlM_nil, List.foldlM_nil]
  | cons a acts ih =>
      obtain ⟨ha, hacts⟩ := List.forall_mem_cons.1 hknown
      rw [List.foldlM_cons, List.foldlM_cons, perform_severity catalog severity other s ha]
      exact bind_congr fun t => ih t hacts

theorem exists_first_unknown (acts : List Act) : (∀ a ∈ acts, ¬a.IsUnknown) ∨
    ∃ before number text after, acts = before ++ .line number text :: after ∧ IsUnknown text ∧
      ∀ a ∈ before, ¬a.IsUnknown := by
  induction acts with
  | nil => exact .inl fun a ha => absurd ha List.not_mem_nil
  | cons a acts ih =>
      by_cases ha : a.IsUnknown
      · cases a with
        | line number text =>
            exact .inr ⟨[], number, text, acts, rfl, ha, fun b hb => absurd hb List.not_mem_nil⟩
        | _ => exact absurd ha id
      · rcases ih with hknown | ⟨before, number, text, after, rfl, hunknown, hbefore⟩
        · exact .inl (List.forall_mem_cons.2 ⟨ha, hknown⟩)
        · exact .inr ⟨a :: before, number, text, after, rfl, hunknown,
            List.forall_mem_cons.2 ⟨ha, hbefore⟩⟩

/-- At an unknown directive all runs are halted by a directive in front of it, or only the strict one is. -/
theorem foldlM_unknown (catalog : Catalog) (s : State) (number : Nat) {text : List Char}
    (hunknown : IsUnknown text) (after : List Act) :
    (∃ e, ∀ severity, (Act.line number text :: after).foldlM
        (State.perform ⟨catalog, severity⟩) s = .error e) ∨
      ((Act.line number text :: after).foldlM (State.perform ⟨catalog, .error⟩) s =
          .error ⟨s.report number (unknownProblem .error text)⟩ ∧
        (Act.line number text :: after).foldlM (State.perform ⟨catalog, .warning⟩) s =
          after.foldlM (State.perform ⟨catalog, .warning⟩)
            (s.report number (unknownProblem .warning text))) := by
  simp only [List.foldlM_cons, State.perform, buildLine_unknown _ _ _ _ hunknown]
  cases hresolve : s.resolve number .other with
  | error e => exact .inl ⟨e, fun severity => rfl⟩
  | ok t =>
      obtain rfl := resolve_other_eq_ok hresolve
      exact .inr ⟨rfl, rfl⟩

/-- Two runs, of which only the first is halted by unknown directives, come out the same, or part at the
first visit of one. -/
theorem finalState_severity (catalog : Catalog) (lines : List (List Char)) :
    finalState ⟨catalog, .error⟩ lines = finalState ⟨catalog, .warning⟩ lines ∨
      ∃ before number text after s, planned lines = before ++ .line number text :: after ∧
        .line number text ∉ before ∧ IsUnknown text ∧
        before.foldlM (State.perform ⟨catalog, .warning⟩) {} = .ok s ∧
        finalState ⟨catalog, .error⟩ lines = s.report number (unknownProblem .error text) ∧
        finalState ⟨catalog, .warning⟩ lines = leave (after.foldlM
          (State.perform ⟨catalog, .warning⟩) (s.report number (unknownProblem .warning text))) := by
  rcases exists_first_unknown (planned lines) with
    hknown | ⟨before, number, text, after, hplanned, hunknown, hbefore⟩
  · refine .inl ?_
    rw [finalState_eq_leave, finalState_eq_leave, foldlM_severity catalog .error .warning {} hknown]
  · have hfinal (severity : Severity) : finalState ⟨catalog, severity⟩ lines =
        leave (before.foldlM (State.perform ⟨catalog, .warning⟩) {} >>= fun s =>
          (Act.line number text :: after).foldlM (State.perform ⟨catalog, severity⟩) s) := by
      rw [finalState_eq_leave, hplanned, List.foldlM_append,
        foldlM_severity catalog severity .warning {} hbefore]
    rw [hfinal, hfinal]
    cases hrun : before.foldlM (State.perform ⟨catalog, .warning⟩) {} with
    | error e =>
        have hhalted (f : State → Step State) : leave (.error e >>= f) = e.state := rfl
        exact .inl ((hhalted _).trans (hhalted _).symm)
    | ok s =>
        have hgoes (f : State → Step State) : leave (.ok s >>= f) = leave (f s) := rfl
        rw [hgoes, hgoes]
        rcases foldlM_unknown catalog s number hunknown after with ⟨e, he⟩ | ⟨hstrict, hlenient⟩
        · exact .inl (congrArg leave ((he .error).trans (he .warning).symm))
        · exact .inr ⟨before, number, text, after, s, hplanned,
            fun hmem => hbefore _ hmem hunknown, hunknown, hrun, congrArg leave hstrict,
            congrArg leave hlenient⟩

theorem diagnostics_prefix_leave (ctx : Context) {acts : List Act}
    (hsevere : ∀ a ∈ acts, a.IsSevere) (s : State) :
    s.diagnostics.toList <+: (leave (acts.foldlM (State.perform ctx) s)).diagnostics.toList := by
  have hjudging := judging_foldlM ctx hsevere s
  cases hrun : acts.foldlM (State.perform ctx) s with
  | ok t =>
      rw [hrun] at hjudging
      exact Warned.isPrefix hjudging
  | error e =>
      rw [hrun] at hjudging
      obtain ⟨t, line, p, hwarned, -, he⟩ := hjudging
      rw [leave, he, State.report, Array.toList_push]
      exact hwarned.isPrefix.trans (List.prefix_append _ _)

/-- Headers made up for lines behind it do not move a line. -/
theorem shiftLine_append_of_lt {inserted more : List Nat} {n : Nat} (h : ∀ k ∈ more, n < k) :
    Parsed.shiftLine (inserted ++ more) n = Parsed.shiftLine inserted n := by
  have hnone : more.countP (· ≤ n) = 0 := List.countP_eq_zero.2 fun k hk => by
    rw [decide_eq_true_iff]
    exact Nat.not_le_of_lt (h k hk)
  rw [Parsed.shiftLine, Parsed.shiftLine, List.countP_append, hnone, Nat.add_zero]

/-- The line of an unknown directive gets no header. -/
theorem not_isPolygon_of_unknown {text : List Char} (h : IsUnknown text) (body : PolygonBody) :
    ¬IsPolygon text body := by
  rintro ⟨i, hread, -⟩
  have hdirective := (isInstruction_of_read hread).2
  rw [h.2.1] at hdirective
  cases hdirective

section Parting

variable {lines : List (List Char)} {before after : List Act} {number : Nat} {text : List Char}
  {ctx : Context} {s : State}

/-- Behind an unknown directive, headers are made up for later lines only. -/
theorem headers_behind_unknown (hplanned : planned lines = before ++ .line number text :: after)
    (hfirst : .line number text ∉ before) (hunknown : IsUnknown text)
    (hrun : before.foldlM (State.perform ctx) {} = .ok s) :
    ∃ more, (finalState ctx lines).headers.toList = s.headers.toList ++ more ∧
      ∀ h ∈ more, number < h.line := by
  obtain ⟨more, hheaders, hmore⟩ := headers_behind_first_visit hplanned hfirst hrun
  refine ⟨more, hheaders, fun h hh => Nat.lt_of_le_of_ne (hmore h hh) ?_⟩
  rintro rfl
  obtain ⟨-, hline, -⟩ : (Act.line h.line text).Of lines :=
    of_mem_planned (hplanned ▸ List.mem_append_cons_self)
  have hne : lines ≠ [] := by
    rintro rfl
    cases hline
  obtain ⟨-, text', hline', -, body, hbody, -⟩ := (sourced_finalState ctx hne).headers h
    (hheaders ▸ List.mem_append_right _ hh)
  rw [hline] at hline'
  exact not_isPolygon_of_unknown hunknown body (Option.some.inj hline' ▸ hbody)

/-- What is reported in front of the first visit of a line is about lines before it. -/
theorem line_lt_of_first_visit (hplanned : planned lines = before ++ .line number text :: after)
    (hfirst : .line number text ∉ before)
    (hrun : before.foldlM (State.perform ctx) {} = .ok s) :
    ∀ d ∈ s.diagnostics.toList, d.line < number := by
  intro d hd
  rw [eq_acts_of_first_visit hplanned hfirst] at hrun
  have hsourced : Sourced (lines.take (number - 1)) s :=
    Sourced.initial.performed (fun a ha => Block.Draft.of_mem_acts _ ha) hrun
  obtain ⟨hpos, hle⟩ := hsourced.diagnostics d hd
  rw [List.length_take] at hle
  omega

end Parting

/-- Two parses that part at an unknown directive have the same diagnostics in front of it. -/
theorem diagnostics_parted (lines : List (List Char)) {s t : State} {number : Nat} (p : Problem)
    {p' : Problem} {more : List MadeUpHeader} (hheaders : t.headers.toList = s.headers.toList ++ more)
    (hmore : ∀ h ∈ more, number < h.line) (hbefore : ∀ d ∈ s.diagnostics.toList, d.line < number)
    (hdiagnostics : (s.report number p').diagnostics.toList <+: t.diagnostics.toList) :
    ∃ early line rest, (Parsed.ofState lines (s.report number p)).diagnostics = early ++ [⟨line, p⟩] ∧
      (Parsed.ofState lines t).diagnostics = early ++ ⟨line, p'⟩ :: rest := by
  obtain ⟨late, hlate⟩ := hdiagnostics
  have hsame {n : Nat} (hn : n ≤ number) : Parsed.shiftLine (t.headers.toList.map (·.line)) n =
      Parsed.shiftLine (s.headers.toList.map (·.line)) n := by
    rw [hheaders, List.map_append]
    refine shiftLine_append_of_lt fun k hk => ?_
    obtain ⟨h, hh, rfl⟩ := List.mem_map.1 hk
    exact Nat.lt_of_le_of_lt hn (hmore h hh)
  rw [State.report, Array.toList_push, List.append_assoc, List.singleton_append] at hlate
  let shifted (t : State) (d : Diagnostic) : Diagnostic :=
    { d with line := Parsed.shiftLine (t.headers.toList.map (·.line)) d.line }
  have hreported (t : State) :
      (Parsed.ofState lines t).diagnostics = t.diagnostics.toList.map (shifted t) := rfl
  refine ⟨s.diagnostics.toList.map (shifted s),
    Parsed.shiftLine (s.headers.toList.map (·.line)) number, late.map (shifted t), ?_, ?_⟩
  · rw [hreported, State.report, Array.toList_push, List.map_append]
    rfl
  · have hearly : s.diagnostics.toList.map (shifted t) = s.diagnostics.toList.map (shifted s) :=
      List.map_congr_left fun d hd => by
        dsimp only [shifted]
        rw [hsame (Nat.le_of_lt (hbefore d hd))]
    rw [hreported, ← hlate, List.map_append, List.map_cons, hearly, ← hsame (Nat.le_refl number)]

/-- Whether unknown directives are errors or warnings is a matter of judgement, not of meaning. Without any,
the parse is the same; with one, what the strict parse reports is the beginning of what the lenient one
does, except for the severity of the last diagnostic, and so are the operations of its layers. -/
theorem parseWith_severity (catalog : Catalog) (text : String) :
    let strict := parseWith ⟨catalog, .error⟩ text
    let lenient := parseWith ⟨catalog, .warning⟩ text
    let content (d : Diagnostic) := (d.line, d.problem.code, d.problem.message)
    ((∀ d ∈ strict.diagnostics, d.problem.code ≠ "ANNOTATION001") → strict = lenient) ∧
      strict.diagnostics.dropLast <+: lenient.diagnostics ∧
      strict.diagnostics.map content <+: lenient.diagnostics.map content ∧
      strict.circuit.layers.flatMap (·.operations.toList) <+:
        lenient.circuit.layers.flatMap (·.operations.toList) := by
  intro strict lenient content
  have hoperations : strict.circuit.layers.flatMap (·.operations.toList) = _ :=
    operations_parseWith ⟨catalog, .error⟩ text
  have hoperations' : lenient.circuit.layers.flatMap (·.operations.toList) = _ :=
    operations_parseWith ⟨catalog, .warning⟩ text
  rcases finalState_severity catalog (Source.normalize text.toList) with
    hsame | ⟨before, number, line, after, s, hplanned, hfirst, hunknown, hrun, hstrict, hlenient⟩
  · have heq : strict = lenient := congrArg (Parsed.ofState _) hsame
    rw [heq]
    exact ⟨fun _ => rfl, List.dropLast_prefix _, List.prefix_rfl, List.prefix_rfl⟩
  · obtain ⟨more, hheaders, hmore⟩ := headers_behind_unknown hplanned hfirst hunknown hrun
    have hsevere : ∀ a ∈ after, a.IsSevere := fun a ha => isSevere_of_mem_acts a <| by
      rw [← planned, hplanned]
      exact List.mem_append_right _ (List.mem_cons_of_mem _ ha)
    have hreported := diagnostics_prefix_leave ⟨catalog, .warning⟩ hsevere
      (s.report number (unknownProblem .warning line))
    rw [← hlenient] at hreported
    obtain ⟨early, shifted, rest, hearly, hall⟩ := diagnostics_parted
      (Source.normalize text.toList) (unknownProblem .error line) hheaders hmore
      (line_lt_of_first_visit hplanned hfirst hrun) hreported
    rw [← hstrict] at hearly
    replace hearly : strict.diagnostics = _ := hearly
    replace hall : lenient.diagnostics = _ := hall
    rw [hearly, hall, List.dropLast_concat, List.map_append, List.map_append, List.map_cons]
    refine ⟨fun hnone => absurd rfl (hnone ⟨shifted, unknownProblem .error line⟩ (by simp)),
      List.prefix_append _ _, (List.prefix_append_right_inj _).2 ⟨_, rfl⟩, ?_⟩
    rw [hoperations, hoperations', hstrict, hlenient]
    exact State.operations_prefix_leave ⟨catalog, .warning⟩ after
      (s.report number (unknownProblem .warning line))

end Build

end StimOverlay
