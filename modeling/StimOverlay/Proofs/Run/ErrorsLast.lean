import StimOverlay.Proofs.Parsed.LineLocations

/-! Errors come last. A run reports warnings as it goes on, and an error only where it comes to a halt; so
there is one error at most, it is the last diagnostic, and it is there exactly if the run was halted. -/

namespace StimOverlay

/-- The diagnostics of a parse are those of the run, at the lines where they are found in the end. -/
theorem Parsed.exists_shifted_diagnostics (lines : List (List Char)) (s : Build.State) :
    ∃ shifted : Diagnostic → Diagnostic, (∀ d, (shifted d).isError = d.isError) ∧
      (ofState lines s).diagnostics = s.diagnostics.toList.map shifted :=
  ⟨fun d => { d with line := shiftLine (insertedBy s) d.line }, fun _ => rfl, rfl⟩

namespace Build

variable {ctx : Context} {a : Act} {start : Option Nat} {s t u : State}

/-- Between two states there have been warnings at most. -/
def Warned (s t : State) : Prop := ∃ warnings, t.diagnostics.toList = s.diagnostics.toList ++ warnings ∧
  ∀ d ∈ warnings, d.isError = false

theorem Warned.of_eq (h : t.diagnostics = s.diagnostics) : Warned s t :=
  ⟨[], by rw [h, List.append_nil], fun d hd => absurd hd List.not_mem_nil⟩

theorem Warned.refl (s : State) : Warned s s := .of_eq rfl

theorem Warned.trans (h : Warned s t) (h' : Warned t u) : Warned s u := by
  obtain ⟨ds, hds, hquiet⟩ := h
  obtain ⟨es, hes, hquiet'⟩ := h'
  exact ⟨ds ++ es, by rw [hes, hds, List.append_assoc], List.forall_mem_append.2 ⟨hquiet, hquiet'⟩⟩

theorem Warned.isPrefix (h : Warned s t) : s.diagnostics.toList <+: t.diagnostics.toList := by
  obtain ⟨warnings, heq, -⟩ := h
  exact ⟨warnings, heq.symm⟩

/-- A step that reports warnings, and an error if it halts. -/
def Judging (s : State) : Step State → Prop
  | .ok t => Warned s t
  | .error e => ∃ t line p, Warned s t ∧ p.severity = .error ∧ e.state = t.report line p

theorem Edit.warned (h : Edit a start s t) : Warned s t := by
  cases h with
  | adds hadds =>
      obtain ⟨warnings, heq, hall⟩ := hadds.diagnostics
      exact ⟨warnings, heq, fun d hd => (hall d hd).2⟩
  | @warn line p here warning =>
      refine ⟨[⟨line, p⟩], Array.toList_push, fun d hd => ?_⟩
      rw [List.mem_singleton.1 hd, Diagnostic.isError, Diagnostic.severity, warning]
      rfl
  | drawBarePolygon free polygon =>
      unfold State.drawBarePolygon
      dsimp only
      split_ifs <;> exact .of_eq rfl
  | _ => exact .of_eq rfl

theorem Edited.warned (h : Edited a start s t) : Warned s t := by
  induction h with
  | refl => exact .refl s
  | tail _ hedit ih => exact ih.trans hedit.warned

theorem judging_perform (ctx : Context) (s : State) (ha : a.IsSevere) :
    Judging s (s.perform ctx a) := by
  have hediting := editing_perform ctx s ha
  cases hstep : s.perform ctx a with
  | ok t =>
      rw [hstep] at hediting
      exact Edited.warned hediting
  | error e =>
      rw [hstep] at hediting
      obtain ⟨t, line, p, hedited, -, hp, he⟩ := hediting
      exact ⟨t, line, p, Edited.warned hedited, hp, he⟩

theorem Judging.bind {x : Step State} {f : State → Step State} (h : Judging s x)
    (hf : ∀ t, Judging t (f t)) : Judging s (x >>= f) := by
  cases x with
  | error e => exact h
  | ok t =>
      have hnext := hf t
      change Judging s (f t)
      cases hstep : f t with
      | ok u =>
          rw [hstep] at hnext
          exact Warned.trans h hnext
      | error e =>
          rw [hstep] at hnext
          obtain ⟨u, line, p, hwarned, hrest⟩ := hnext
          exact ⟨u, line, p, Warned.trans h hwarned, hrest⟩

theorem judging_foldlM (ctx : Context) {acts : List Act} (hsevere : ∀ a ∈ acts, a.IsSevere)
    (s : State) :
    Judging s (acts.foldlM (State.perform ctx) s) := by
  induction acts generalizing s with
  | nil => exact .refl s
  | cons a acts ih =>
      obtain ⟨ha, hacts⟩ := List.forall_mem_cons.1 hsevere
      exact (judging_perform ctx s ha).bind fun t => ih hacts t

/-- The acts of the blocks of a text and the end of the input. -/
theorem isSevere_of_mem_acts {lines : List (List Char)} :
    ∀ a ∈ Block.actsOf (Block.ofLines lines) ++ [Act.structural lines.length], a.IsSevere := by
  intro a ha
  rcases List.mem_append.1 ha with ha | ha
  · exact (Block.of_mem_actsOf_ofLines ha).isSevere
  · rw [List.mem_singleton.1 ha]
    trivial

theorem judging_runLines (ctx : Context) (lines : List (List Char)) :
    Judging {} (runLines ctx lines) := by
  rw [runLines_eq_foldlM]
  exact judging_foldlM ctx isSevere_of_mem_acts {}

/-- A run that goes through reports no error; one that is halted reports one, at its end. -/
theorem diagnostics_finalState (ctx : Context) (lines : List (List Char)) :
    ((runLines ctx lines).isOk = true ∧
        ∀ d ∈ (finalState ctx lines).diagnostics.toList, d.isError = false) ∨
      ((runLines ctx lines).isOk = false ∧
        ∃ warnings d, (finalState ctx lines).diagnostics.toList = warnings ++ [d] ∧
          d.isError = true ∧ ∀ w ∈ warnings, w.isError = false) := by
  have hjudging := judging_runLines ctx lines
  unfold finalState
  cases hrun : runLines ctx lines with
  | ok t =>
      rw [hrun] at hjudging
      obtain ⟨warnings, heq, hquiet⟩ := hjudging
      exact .inl ⟨rfl, heq ▸ hquiet⟩
  | error e =>
      rw [hrun] at hjudging
      obtain ⟨t, line, p, ⟨warnings, heq, hquiet⟩, hp, he⟩ := hjudging
      refine .inr ⟨rfl, warnings, ⟨line, p⟩, ?_, decide_eq_true hp, hquiet⟩
      change e.state.diagnostics.toList = _
      rw [he, State.report, Array.toList_push, heq]
      rfl

theorem isOk_runLines_eq_false_iff {lines : List (List Char)} : (runLines ctx lines).isOk = false ↔
    (∃ e, runBlocks ctx (Block.ofLines lines) {} = .error e) ∨
      ∃ s e, runBlocks ctx (Block.ofLines lines) {} = .ok s ∧
        s.resolve lines.length .other = .error e := by
  unfold runLines
  cases hblocks : runBlocks ctx (Block.ofLines lines) {} with
  | error e => exact ⟨fun _ => .inl ⟨e, rfl⟩, fun _ => rfl⟩
  | ok s =>
      change (s.resolve lines.length .other).isOk = false ↔ _
      cases hresolve : s.resolve lines.length .other with
      | ok t =>
          constructor
          · intro h
            cases h
          · rintro (⟨e, he⟩ | ⟨s', e, hs', he⟩)
            · cases he
            · cases hs'
              rw [hresolve] at he
              cases he
      | error e => exact ⟨fun _ => .inr ⟨s, e, rfl, hresolve⟩, fun _ => rfl⟩

/-- Of the diagnostics of a parse one is an error at most, and only the last one can be; there is one exactly
if the blocks of the text, or else the end of the input, brought the run to a halt. -/
theorem parseWith_errors (ctx : Context) (text : String) :
    let lines := Source.normalize text.toList
    let diagnostics := (parseWith ctx text).diagnostics
    diagnostics.countP Diagnostic.isError ≤ 1 ∧
      (∀ d ∈ diagnostics.dropLast, d.isError = false) ∧
      ((∃ d ∈ diagnostics, d.isError = true) ↔
        (∃ e, runBlocks ctx (Block.ofLines lines) {} = .error e) ∨
          ∃ s e, runBlocks ctx (Block.ofLines lines) {} = .ok s ∧
            s.resolve lines.length .other = .error e) := by
  intro lines diagnostics
  obtain ⟨shifted, hshifted, heq⟩ := Parsed.exists_shifted_diagnostics lines (finalState ctx lines)
  replace heq : diagnostics = _ := heq
  have hquiet {ds : List Diagnostic} (h : ∀ d ∈ ds, d.isError = false) :
      ∀ d ∈ ds.map shifted, d.isError = false := by
    intro d hd
    obtain ⟨d', hd', rfl⟩ := List.mem_map.1 hd
    rw [hshifted, h d' hd']
  rw [← isOk_runLines_eq_false_iff, heq]
  rcases diagnostics_finalState ctx lines with ⟨hok, hall⟩ | ⟨hhalted, warnings, d, hds, hd, hall⟩
  · have hnone := hquiet hall
    refine ⟨?_, fun d hd => hnone d (List.dropLast_subset _ hd), ?_, ?_⟩
    · rw [List.countP_eq_zero.2 fun d hd => by simp [hnone d hd]]
      exact Nat.zero_le 1
    · rintro ⟨d, hd, herror⟩
      rw [hnone d hd] at herror
      cases herror
    · intro h
      rw [hok] at h
      cases h
  · have hfront := hquiet hall
    rw [hds, List.map_append, List.map_singleton, List.dropLast_concat]
    refine ⟨?_, hfront, fun _ => hhalted, fun _ => ⟨shifted d, by simp, (hshifted d).trans hd⟩⟩
    rw [List.countP_append, List.countP_eq_zero.2 fun w hw => by simp [hfront w hw], Nat.zero_add]
    exact List.countP_le_length

end Build

end StimOverlay
