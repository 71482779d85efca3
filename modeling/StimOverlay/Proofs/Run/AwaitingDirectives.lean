import StimOverlay.Proofs.Run.ActSources

/-! Awaiting lines. Whether a directive waits in front of a line is decided by the lines before it: a line
that counts leaves one behind or none, whatever waited for it. So it is the same whenever the line is built
again, because nothing may wait in front of a header or behind a body, and the rounds of a repetition cannot
differ then. -/

namespace StimOverlay

open Build

/-- Whether a directive has to wait for a line. -/
def Directive.awaits (d : Directive) : Bool :=
  match d.kind with
  | .qubit => !d.keys.contains "Q"
  | .highlight =>
      (((d.keys.get? "TARGET").map fun v => String.ofList (v.toList.map Char.toUpper)).or
        d.keys.words.head?).getD gateTarget = gateTarget
  | .polygon => true
  | _ => false

namespace Build

def State.waits (s : State) : Bool := s.anchor.line?.isSome

/-- Whether a directive waits behind a line, given whether one waits in front of it. -/
def waiting (w : Bool) (text : List Char) : Bool :=
  if State.isTrivia (Text.trim text) then w
  else Source.isDirective (Text.trim text) && (Directive.read (Text.trim text)).awaits

/-- Whether a directive waits behind an act; none does behind one of the block structure. -/
def Act.waiting (w : Bool) : Act → Bool
  | .line _ text => Build.waiting w text
  | _ => false

/-- Whether a directive waits behind a line of a text, where braces and headers stand between others. -/
def lineWaiting (w : Bool) (text : List Char) : Bool :=
  if Block.mark (Text.trim text) = .plain then waiting w text else false

variable {ctx : Context} {s t : State} {line : Nat}

/-- A directive that is resolved does not wait any more. -/
theorem anchor_of_resolve {o : Outcome} (h : s.resolve line o = .ok t) : t.anchor = .free := by
  have hhighlight (line : Nat) (colour : Option String) (qubits : List QubitId) (gate : String)
      (targets : List QubitId) (layer : Nat) :
      (State.highlightGate { s with anchor := .free } line colour qubits gate targets layer).anchor =
        .free := by
    unfold State.highlightGate
    dsimp only
    split_ifs <;> rfl
  have hbare (body : PolygonBody) :
      (State.drawBarePolygon { s with anchor := .free } line body).anchor = .free := by
    unfold State.drawBarePolygon
    dsimp only
    split_ifs <;> rfl
  unfold State.resolve at h
  split at h
  · cases h
    exact hbare _
  · cases h
    rfl
  · cases h
    rfl
  · cases h
  · cases h
    exact hhighlight _ _ _ _ _ _
  · cases h
  · cases h
    rfl
  · cases h
    rfl
  · cases h

theorem waits_of_resolve {o : Outcome} (h : s.resolve line o = .ok t) : t.waits = false := by
  rw [State.waits, anchor_of_resolve h]
  rfl

/-- Nothing waits for a line of another kind. -/
theorem waits_of_resolve_other (h : s.resolve line .other = .ok t) : s.waits = false := by
  rw [← resolve_other_eq_ok h]
  exact waits_of_resolve h

theorem waits_of_apply {d : Directive} (hfree : s.anchor = .free)
    (h : s.apply ctx line d = .ok t) : t.waits = d.awaits := by
  have hquiet {u : State} (hanchor : u.anchor = s.anchor) : u.waits = false := by
    rw [State.waits, hanchor, hfree]
    rfl
  unfold State.apply at h
  unfold Directive.awaits
  cases hkind : d.kind with
  | sheet =>
      simp only [hkind, State.declareSheet] at h
      split at h
      · cases h
      · split_ifs at h
        · cases h
        · cases h
        · cases h
          exact hquiet rfl
  | qubit =>
      simp only [hkind, State.applyQubit_eq] at h
      obtain ⟨_, -, h⟩ := exists_ok_of_bind h
      unfold State.describeNamed at h
      split_ifs at h with hnamed
      · split at h
        · rw [← Except.ok.inj h, hnamed]
          exact hquiet rfl
        · cases h
      · cases h
        simp [hnamed, State.waits, Anchor.line?]
  | connections =>
      simp only [hkind, State.applyConnections] at h
      obtain ⟨_, -, h⟩ := exists_ok_of_bind h
      cases h
      exact hquiet rfl
  | highlight =>
      simp only [hkind, State.applyHighlight] at h
      split_ifs at h with htarget
      · cases h
        simp [htarget, State.waits, Anchor.line?]
      · cases h
        exact (hquiet rfl).trans (decide_eq_false htarget).symm
  | polygon =>
      simp only [hkind, State.applyPolygon] at h
      obtain ⟨_, -, h⟩ := exists_ok_of_bind h
      cases h
      rfl
  | unknown =>
      simp only [hkind, State.judge] at h
      split_ifs at h
      · cases h
      · cases h
        exact hquiet rfl

/-- What waits behind a line that does not halt. -/
theorem waits_of_buildLine {text : List Char} (h : s.buildLine ctx line text = .ok t) :
    t.waits = waiting s.waits text := by
  unfold State.buildLine at h
  unfold waiting
  dsimp only at h
  split_ifs at h ⊢ with htrivia hdirective
  · cases h
    rfl
  · obtain ⟨u, hresolve, h⟩ := exists_ok_of_bind h
    rw [hdirective, Bool.true_and]
    exact waits_of_apply (anchor_of_resolve hresolve) h
  · rw [Bool.eq_false_iff.2 hdirective, Bool.false_and]
    split at h
    · cases h
    · unfold State.buildInstruction at h
      split at h
      · cases h
      · obtain ⟨r, -, h⟩ := exists_ok_of_bind h
        exact waits_of_resolve h

theorem waits_of_perform {a : Act} (h : s.perform ctx a = .ok t) : t.waits = a.waiting s.waits := by
  cases a with
  | line number text => exact waits_of_buildLine h
  | structural number => exact waits_of_resolve h
  | fault number p => cases h

theorem waits_of_performed {acts : List Act} (h : acts.foldlM (State.perform ctx) s = .ok t) :
    t.waits = acts.foldl Act.waiting s.waits := by
  induction acts generalizing s with
  | nil =>
      cases h
      rfl
  | cons a acts ih =>
      obtain ⟨u, hstep, h⟩ := exists_ok_of_bind h
      rw [ih h, waits_of_perform hstep, List.foldl_cons]

/-- What waits in front of an act may only wait longer. -/
theorem Act.waiting_mono {w w' : Bool} (h : w = true → w' = true) (a : Act) :
    a.waiting w = true → a.waiting w' = true := by
  cases a with
  | line number text =>
      simp only [Act.waiting, Build.waiting]
      split_ifs
      · exact h
      · exact id
  | _ => exact id

/-- Acts that are each as `P` says, given whether a directive waits in front of it. -/
def Along (P : Bool → Act → Prop) : Bool → List Act → Prop
  | _, [] => True
  | w, a :: rest => P w a ∧ Along P (a.waiting w) rest

/-- Nothing waits in front of an act of the block structure. -/
def Calm (w : Bool) : Act → Prop
  | .structural _ => w = false
  | _ => True

/-- A directive waits in front of a line exactly if `W` has it so. -/
def Paced (W : Nat → Bool) (w : Bool) : Act → Prop
  | .line number _ => W number = w
  | _ => True

/-- A directive waits in front of a line whenever `W` has it so. -/
def AtLeast (W : Nat → Bool) (w : Bool) : Act → Prop
  | .line number _ => W number = true → w = true
  | _ => True

theorem Along.imp {P Q : Bool → Act → Prop} (hPQ : ∀ w a, P w a → Q w a) {w : Bool}
    {acts : List Act} (h : Along P w acts) : Along Q w acts := by
  induction acts generalizing w with
  | nil => trivial
  | cons a acts ih => exact ⟨hPQ w a h.1, ih h.2⟩

theorem along_of_forall {P : Bool → Act → Prop} {acts : List Act} (h : ∀ a ∈ acts, ∀ w, P w a)
    (w : Bool) : Along P w acts := by
  induction acts generalizing w with
  | nil => trivial
  | cons a acts ih =>
      obtain ⟨ha, hacts⟩ := List.forall_mem_cons.1 h
      exact ⟨ha w, ih hacts _⟩

theorem Paced.atLeast {W : Nat → Bool} {w : Bool} {a : Act} (h : Paced W w a) : AtLeast W w a := by
  cases a with
  | line number text => exact fun hW => h ▸ hW
  | _ => trivial

theorem along_atLeast_mono {W : Nat → Bool} {w w' : Bool} (hw : w = true → w' = true)
    {acts : List Act} (h : Along (AtLeast W) w acts) : Along (AtLeast W) w' acts := by
  induction acts generalizing w w' with
  | nil => trivial
  | cons a acts ih =>
      refine ⟨?_, ih (a.waiting_mono hw) h.2⟩
      cases a with
      | line number text => exact fun hW => hw (h.1 hW)
      | _ => trivial

theorem along_append {P : Bool → Act → Prop} {w : Bool} {xs ys : List Act} :
    Along P w (xs ++ ys) ↔ Along P w xs ∧ Along P (xs.foldl Act.waiting w) ys := by
  induction xs generalizing w with
  | nil => simp [Along]
  | cons a xs ih => rw [List.cons_append, Along, Along, ih, List.foldl_cons, and_assoc]

theorem along_calm {acts : List Act} (h : acts.foldlM (State.perform ctx) s = .ok t) :
    Along Calm s.waits acts := by
  induction acts generalizing s with
  | nil => trivial
  | cons a acts ih =>
      obtain ⟨u, hstep, h⟩ := exists_ok_of_bind h
      refine ⟨?_, waits_of_perform hstep ▸ ih h⟩
      cases a with
      | structural number => exact waits_of_resolve_other hstep
      | _ => trivial

/-- Some acts leave what waits as it is, others put an end to it. -/
theorem waiting_cases (acts : List Act) : (∀ w, acts.foldl Act.waiting w = w) ∨
    ∃ v, ∀ w, acts.foldl Act.waiting w = v := by
  induction acts with
  | nil => exact .inl fun w => rfl
  | cons a acts ih =>
      have hact : (∀ w, a.waiting w = w) ∨ ∃ v, ∀ w, a.waiting w = v := by
        cases a with
        | line number text =>
            by_cases htrivia : State.isTrivia (Text.trim text)
            · exact .inl fun w => if_pos htrivia
            · exact .inr ⟨_, fun w => if_neg htrivia⟩
        | structural number => exact .inr ⟨false, fun w => rfl⟩
        | fault number p => exact .inr ⟨false, fun w => rfl⟩
      simp only [List.foldl_cons]
      rcases ih with hkeep | ⟨v, hend⟩
      · simp only [hkeep]
        exact hact
      · exact .inr ⟨v, fun w => hend _⟩

/-- Another round leaves behind what the last one did. -/
theorem waiting_rounds (round : List Act) (w : Bool) (times : Nat) :
    (List.replicate (times + 1) round).flatten.foldl Act.waiting w =
      round.foldl Act.waiting w := by
  induction times with
  | zero => simp
  | succ times ih =>
      rw [List.replicate_succ', List.flatten_append, List.foldl_append, ih, List.flatten_singleton]
      rcases waiting_cases round with hkeep | ⟨v, hend⟩
      · exact hkeep _
      · rw [hend, hend]

theorem along_rounds {P : Bool → Act → Prop} {round : List Act} (h : Along P false round)
    (hend : round.foldl Act.waiting false = false) (times : Nat) :
    Along P false (List.replicate times round).flatten := by
  induction times with
  | zero => trivial
  | succ times ih =>
      rw [List.replicate_succ, List.flatten_cons, along_append, hend]
      exact ⟨h, ih⟩

theorem along_atLeast_rounds {W : Nat → Bool} {round : List Act}
    (h : Along (AtLeast W) false round) (times : Nat) (w : Bool) :
    Along (AtLeast W) w (List.replicate times round).flatten := by
  induction times generalizing w with
  | zero => trivial
  | succ times ih =>
      rw [List.replicate_succ, List.flatten_cons, along_append]
      exact ⟨along_atLeast_mono (fun h => by cases h) h, ih _⟩

end Build

namespace Block

/-- The lines of a run that is not halted are enacted. -/
theorem enacts_of_runBlocks {ctx : Context} {lines : List (List Char)} {s : State}
    (h : runBlocks ctx (ofLines lines) {} = .ok s) : Enacts 1 lines (actsOf (ofLines lines)) := by
  have hregular := regular_of_finish (allRegular_of_runBlocks h)
  have hstart : ({} : Draft).Positive := fun o ho => absurd ho List.not_mem_nil
  obtain ⟨flat, hflat⟩ := (exists_unrolls lines hstart hregular.1 hregular.2).1 rfl
  obtain ⟨acts, hacts, -⟩ := hflat.exists_enacts
  exact hacts.eq_actsOf ▸ hacts

/-- If nothing waits in front of any act of the block structure, what waits in front of the act of a line is
what the lines before it leave behind. -/
theorem Enacts.along_paced {number : Nat} {lines : List (List Char)} {acts : List Act}
    (h : Enacts number lines acts) {W : Nat → Bool} {w : Bool} (hcalm : Along Calm w acts)
    (hW : ∀ k < lines.length, W (number + k) = (lines.take k).foldl lineWaiting w) :
    Along (Paced W) w acts ∧ acts.foldl Act.waiting w = lines.foldl lineWaiting w := by
  induction h generalizing w with
  | nil => exact ⟨trivial, rfl⟩
  | @line number text rest acts plain tail ih =>
      have hline : lineWaiting w text = waiting w text := if_pos plain
      obtain ⟨hpaced, hend⟩ := ih (w := waiting w text) hcalm.2 fun k hk => by
        rw [Nat.add_right_comm, Nat.add_assoc, hW (k + 1) (Nat.succ_lt_succ hk), List.take_succ_cons,
          List.foldl_cons, hline]
      refine ⟨⟨hW 0 (Nat.succ_pos _), hpaced⟩, ?_⟩
      rw [List.foldl_cons, List.foldl_cons, hline]
      exact hend
  | @repetition number times header close body rest round acts opening inside closing tail ihi iht =>
      obtain ⟨times, rfl⟩ := Nat.exists_eq_succ_of_ne_zero (Nat.ne_of_gt (times_pos_of_header opening))
      obtain ⟨hstart, hcalm⟩ := hcalm
      obtain rfl : w = false := hstart
      obtain ⟨hrounds, hclose, hrest⟩ := along_append.1 hcalm
      -- Nothing waits behind the last round, so nothing does behind any.
      rw [waiting_rounds] at hclose
      have hround : Along Calm false round := by
        rw [List.replicate_succ, List.flatten_cons, along_append] at hrounds
        exact hrounds.1
      have hheader : lineWaiting false header = false := by simp [lineWaiting, opening]
      have hbrace (w : Bool) : lineWaiting w close = false := by simp [lineWaiting, closing]
      obtain ⟨hpaced, -⟩ := ihi (w := false) hround fun k hk => by
        have hlt : k + 1 < (header :: (body ++ close :: rest)).length := by simp; omega
        rw [Nat.add_right_comm, Nat.add_assoc, hW (k + 1) hlt, List.take_succ_cons, List.foldl_cons,
          hheader, List.take_append_of_le_length (Nat.le_of_lt hk)]
      obtain ⟨hpaced', hend⟩ := iht (w := false) hrest fun k hk => by
        have hlt : body.length + 2 + k < (header :: (body ++ close :: rest)).length := by simp; omega
        have htake : (header :: (body ++ close :: rest)).take (body.length + 2 + k) =
            header :: (body ++ close :: rest.take k) := by
          rw [show body.length + 2 + k = body.length + (k + 1) + 1 by omega, List.take_succ_cons,
            List.take_length_add_append, List.take_succ_cons]
        rw [Nat.add_assoc number, Nat.add_assoc number, hW _ hlt, htake]
        simp [hbrace]
      refine ⟨⟨trivial, along_append.2 ⟨along_rounds hpaced hclose _, trivial, hpaced'⟩⟩, ?_⟩
      rw [List.cons_append, List.foldl_cons, List.foldl_append, List.foldl_cons]
      rw [show (Act.structural (number + body.length + 1)).waiting _ = false from rfl, hend]
      simp [hbrace]

end Block

end StimOverlay
