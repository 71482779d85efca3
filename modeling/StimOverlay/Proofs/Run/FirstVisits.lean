import StimOverlay.Proofs.Parsed.ReparsedText

/-! First visits. Lines are built for the first time in the order of the text; only a repetition comes
back to a line. Whatever waits in front of a line then, nothing less waited for it the first time. So a
line that gets a header gets it when it is first built: from the first visit of a line on, headers are
made up only for that line and those behind it. -/

namespace StimOverlay

open Build

namespace Block

/-- The act of a line stands behind those of the lines before it. -/
theorem acts_prefix_of_line {lines : List (List Char)} {k : Nat} {text : List Char}
    (hline : lines[k]? = some text) (hplain : mark (Text.trim text) = .plain) :
    (readFrom {} 1 (lines.take k)).acts ++ [.line (k + 1) text] <+: (readFrom {} 1 lines).acts := by
  obtain ⟨hk, hget⟩ := List.getElem?_eq_some_iff.1 hline
  have hsplit : lines = lines.take k ++ text :: lines.drop (k + 1) := by
    rw [← hget, ← List.drop_eq_getElem_cons hk, List.take_append_drop]
  have hnumber : 1 + (lines.take k).length = k + 1 := by
    rw [List.length_take_of_le (Nat.le_of_lt hk), Nat.add_comm]
  have hpositive := (Draft.positive_start.readFrom 1 (lines.take k)).read (k + 1) text
  have hstarts := Draft.acts_prefix_readFrom hpositive (k + 1 + 1) (lines.drop (k + 1))
  rw [Draft.read_plain hplain, Draft.acts_add] at hstarts
  conv_rhs => rw [hsplit, readFrom_append, hnumber, readFrom, Draft.read_plain hplain]
  exact hstarts

/-- What waits behind the acts of some lines waits behind the lines. -/
theorem foldl_waiting_acts (lines : List (List Char)) :
    (readFrom {} 1 lines).acts.foldl Act.waiting false = lines.foldl lineWaiting false := by
  induction lines using List.reverseRecOn with
  | nil => rfl
  | append_singleton lines text ih =>
      rw [readFrom_append, readFrom, readFrom, List.foldl_append, List.foldl_cons, List.foldl_nil]
      generalize readFrom {} 1 lines = d at ih
      unfold lineWaiting
      cases hmark : mark (Text.trim text) with
      | plain =>
          rw [Draft.read_plain hmark, Draft.acts_add, List.foldl_append, ih]
          rfl
      | close =>
          rw [Draft.read_close hmark]
          obtain ⟨enclosing, level⟩ := d
          cases enclosing with
          | nil =>
              rw [Draft.close, Draft.acts_add, List.foldl_append]
              rfl
          | cons o outer =>
              simp [Draft.close, Draft.acts, actsOf_concat, Block.acts, Act.waiting]
      | header times =>
          rw [Draft.read_header hmark]
          simp [Draft.acts, openActs, actsOf, Act.waiting]
      | malformedHeader =>
          rw [Draft.read_malformed hmark, Draft.acts_add, List.foldl_append]
          rfl

variable {W : Nat → Bool}

/-- A closing brace goes back to lines in front of which nothing less waits than before. -/
theorem along_atLeast_close {d : Draft} (h : Along (AtLeast W) false d.acts) (number : Nat) :
    Along (AtLeast W) false (d.close number).acts := by
  obtain ⟨enclosing, level⟩ := d
  cases enclosing with
  | nil =>
      rw [Draft.close, Draft.acts_add, along_append]
      exact ⟨h, trivial, trivial, trivial⟩
  | cons o outer =>
      have hopen : Draft.acts ⟨o :: outer, level⟩ =
          (openActs outer ++ actsOf o.before.toList ++ [.structural o.start]) ++
            actsOf level.toList := rfl
      have hclosed : (Draft.close ⟨o :: outer, level⟩ number).acts =
          (openActs outer ++ actsOf o.before.toList ++ [.structural o.start]) ++
            ((List.replicate o.times (actsOf level.toList)).flatten ++ [.structural number]) := by
        simp [Draft.close, Draft.acts, actsOf_concat, Block.acts]
      have hheader : (openActs outer ++ actsOf o.before.toList ++ [Act.structural o.start]).foldl
          Act.waiting false = false := by
        rw [List.foldl_append]
        rfl
      rw [hopen, along_append, hheader] at h
      rw [hclosed, along_append, hheader]
      exact ⟨h.1, along_append.2 ⟨along_atLeast_rounds h.2 o.times false, trivial, trivial⟩⟩

/-- If a directive waits for a line when the lines before it have been read once, one waits for it whenever
it is built. -/
theorem along_atLeast_acts (lines : List (List Char))
    (hW : ∀ k < lines.length, W (k + 1) = (lines.take k).foldl lineWaiting false) :
    Along (AtLeast W) false (readFrom {} 1 lines).acts := by
  induction lines using List.reverseRecOn with
  | nil => trivial
  | append_singleton lines text ih =>
      have hlast : W (1 + lines.length) = lines.foldl lineWaiting false := by
        rw [Nat.add_comm, hW lines.length (by simp), List.take_left']
        rfl
      have hread := ih fun k hk => by
        rw [hW k (by simp; omega), List.take_append_of_le_length (Nat.le_of_lt hk)]
      have hwaits := foldl_waiting_acts lines
      rw [readFrom_append, readFrom, readFrom]
      generalize readFrom {} 1 lines = d at hread hwaits
      cases hmark : mark (Text.trim text) with
      | plain =>
          rw [Draft.read_plain hmark, Draft.acts_add, along_append, hwaits]
          exact ⟨hread, fun h => hlast ▸ h, trivial⟩
      | close =>
          rw [Draft.read_close hmark]
          exact along_atLeast_close hread _
      | header times =>
          have hheader : (Draft.acts ⟨⟨times, 1 + lines.length, d.level⟩ :: d.enclosing, #[]⟩) =
              d.acts ++ [.structural (1 + lines.length)] := by
            simp [Draft.acts, openActs, actsOf]
          rw [Draft.read_header hmark, hheader, along_append]
          exact ⟨hread, trivial, trivial⟩
      | malformedHeader =>
          rw [Draft.read_malformed hmark, Draft.acts_add, along_append]
          exact ⟨hread, trivial, trivial⟩

end Block

namespace Build

open Block

variable {ctx : Context} {lines : List (List Char)} {s t : State}

theorem Sourced.edited {a : Act} (ha : a.Of lines) (hs : Sourced lines s)
    (h : Edited a s.anchor.line? s t) : Sourced lines t := by
  induction h with
  | refl => exact hs
  | tail _ hedit ih => exact hs.edit ha ih hedit

theorem Sourced.performed {acts : List Act} (hof : ∀ a ∈ acts, a.Of lines) (hs : Sourced lines s)
    (h : acts.foldlM (State.perform ctx) s = .ok t) : Sourced lines t := by
  induction acts generalizing s with
  | nil =>
      cases h
      exact hs
  | cons a acts ih =>
      obtain ⟨ha, hacts⟩ := List.forall_mem_cons.1 hof
      obtain ⟨u, hstep, h⟩ := exists_ok_of_bind h
      exact ih hacts (hs.edited ha (edited_of_perform hstep)) h

/-- The acts of a run over some lines that nothing halts, the end of the input included. -/
def planned (lines : List (List Char)) : List Act :=
  actsOf (ofLines lines) ++ [.structural lines.length]

theorem finalState_eq_leave (ctx : Context) (lines : List (List Char)) :
    finalState ctx lines = leave ((planned lines).foldlM (State.perform ctx) {}) := by
  rw [finalState, runLines_eq_foldlM, planned]
  cases List.foldlM (State.perform ctx) {} _ <;> rfl

theorem of_mem_planned {number : Nat} {text : List Char} (h : .line number text ∈ planned lines) :
    (Act.line number text).Of lines := by
  rcases List.mem_append.1 h with h | h
  · exact of_mem_actsOf_ofLines h
  · cases List.mem_singleton.1 h

theorem along_atLeast_planned (lines : List (List Char)) :
    Along (AtLeast fun n => (lines.take (n - 1)).foldl lineWaiting false) false (planned lines) := by
  rw [planned, ofLines, Draft.actsOf_finish, List.append_assoc, along_append]
  refine ⟨along_atLeast_acts lines fun k _ => rfl, along_of_forall (fun a ha w => ?_) _⟩
  rcases List.mem_append.1 ha with ha | ha
  · obtain ⟨o, -, rfl⟩ := List.mem_map.1 ha
    trivial
  · rw [List.mem_singleton.1 ha]
    trivial

theorem eq_of_append_cons_eq {α : Type} {a : α} {xs xs' ys ys' : List α}
    (h : xs ++ a :: ys = xs' ++ a :: ys') (hxs : a ∉ xs) (hxs' : a ∉ xs') : xs = xs' := by
  rcases List.append_eq_append_iff.1 h with ⟨more, rfl, hmore⟩ | ⟨more, rfl, hmore⟩
  · cases more with
    | nil => exact (List.append_nil _).symm
    | cons b more =>
        obtain ⟨rfl, -⟩ := List.cons.inj hmore
        exact absurd (List.mem_append_right _ List.mem_cons_self) hxs'
  · cases more with
    | nil => exact List.append_nil _
    | cons b more =>
        obtain ⟨rfl, -⟩ := List.cons.inj hmore
        exact absurd (List.mem_append_right _ List.mem_cons_self) hxs

section FirstVisit

variable {before after : List Act} {number : Nat} {text : List Char}

/-- The first visit of a line comes when the lines before it have been read. -/
theorem eq_acts_of_first_visit (hplanned : planned lines = before ++ .line number text :: after)
    (hfirst : .line number text ∉ before) :
    before = (readFrom {} 1 (lines.take (number - 1))).acts := by
  obtain ⟨hpos, hline, hplain⟩ : (Act.line number text).Of lines :=
    of_mem_planned (hplanned ▸ List.mem_append_cons_self)
  obtain ⟨rest, hrest⟩ := acts_prefix_of_line hline hplain
  have hunread : .line number text ∉ (readFrom {} 1 (lines.take (number - 1))).acts := by
    intro hmem
    have hle : number ≤ (lines.take (number - 1)).length := (Draft.of_mem_acts _ hmem).number_le
    rw [List.length_take] at hle
    omega
  rw [planned, ofLines, Draft.actsOf_finish, ← hrest, Nat.sub_add_cancel hpos] at hplanned
  simp only [List.append_assoc, List.cons_append, List.nil_append] at hplanned
  exact eq_of_append_cons_eq hplanned.symm hfirst hunread

/-- A line before it that got no header has been in wait of none, or is no polygon. -/
theorem exists_header_of_free (hrun : (readFrom {} 1 lines).acts.foldlM (State.perform ctx) {} = .ok s)
    {k : Nat} {body : PolygonBody} (hline : lines[k]? = some text)
    (hplain : mark (Text.trim text) = .plain) (hbody : IsPolygon text body)
    (hfree : (lines.take k).foldl lineWaiting false = false) :
    ∃ h ∈ s.headers.toList, h.line = k + 1 := by
  obtain ⟨rest, hrest⟩ := acts_prefix_of_line hline hplain
  rw [← hrest, List.foldlM_append, List.foldlM_append] at hrun
  obtain ⟨v, hrun, hbehind⟩ := exists_ok_of_bind hrun
  obtain ⟨u, hbefore, hvisit⟩ := exists_ok_of_bind hrun
  obtain ⟨w, hvisit, hw⟩ := exists_ok_of_bind hvisit
  cases hw
  have hwaits : u.waits = false := by
    rw [waits_of_performed hbefore]
    exact (foldl_waiting_acts _).trans hfree
  rw [eq_drawBarePolygon hbody (free_of_waits hwaits) hvisit] at hbehind
  obtain ⟨h, hmem, hnumber⟩ := exists_header_drawBarePolygon { u with contentSeen := true } (k + 1) body
  exact ⟨h, headers_of_performed hbehind hmem, hnumber⟩

/-- From the first visit of a line on, no header is made up for a line before it. -/
theorem headers_behind_first_visit
    (hplanned : planned lines = before ++ .line number text :: after)
    (hfirst : .line number text ∉ before) (hrun : before.foldlM (State.perform ctx) {} = .ok s) :
    ∃ more, (finalState ctx lines).headers.toList = s.headers.toList ++ more ∧
      ∀ h ∈ more, number ≤ h.line := by
  have hleast := along_atLeast_planned lines
  have hsevere : ∀ a ∈ planned lines, a.IsSevere := isSevere_of_mem_acts
  have hfinal := finalState_eq_leave ctx lines
  have hbefore := eq_acts_of_first_visit hplanned hfirst
  rw [hplanned, along_append] at hleast
  rw [hplanned] at hsevere
  rw [hplanned, List.foldlM_append, hrun] at hfinal
  have hwaits : s.waits = before.foldl Act.waiting false := waits_of_performed hrun
  obtain ⟨more, hmore, hfree⟩ := headers_of_run ctx
    (fun a ha => hsevere a (List.mem_append_right _ ha)) (hwaits ▸ hleast.2)
  have hheaders : (finalState ctx lines).headers.toList = s.headers.toList ++ more :=
    hfinal ▸ hmore
  refine ⟨more, hheaders, fun x hx => Nat.le_of_not_lt fun hlt => ?_⟩
  -- The line was free when it was first built, so it got its header then, and gets no other.
  have hof : (Act.line number text).Of lines :=
    of_mem_planned (hplanned ▸ List.mem_append_cons_self)
  have hsourced : Sourced lines (finalState ctx lines) := sourced_finalState ctx fun hnil => by
    rw [hnil] at hof
    cases hof.2.1
  obtain ⟨hpos, visited, hline, ⟨hplain, body, hbody, -⟩⟩ :=
    hsourced.headers x (hheaders ▸ List.mem_append_right _ hx)
  have hlines : (lines.take (number - 1))[x.line - 1]? = some visited := by
    rw [List.getElem?_take_of_lt (by omega), hline]
  rw [hbefore] at hrun
  obtain ⟨y, hy, hsame⟩ := exists_header_of_free hrun hlines hplain hbody (by
    rw [List.take_take, Nat.min_eq_left (by omega)]
    exact hfree x hx)
  have hnodup := hsourced.nodup
  rw [hheaders, List.map_append, List.nodup_append] at hnodup
  exact hnodup.2.2 _ (List.mem_map_of_mem hy) _ (List.mem_map_of_mem hx) (by omega)

end FirstVisit

end Build

end StimOverlay
