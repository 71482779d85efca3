import StimOverlay.Proofs.Run.ActEdits
import StimOverlay.Proofs.Run.HaltedContinuation

/-! Where acts come from. Every act of a block tree belongs to a line of the text that the tree was read
from, however often the line is repeated, and a fault of the block structure is an error. -/

namespace StimOverlay

namespace Build

variable {lines : List (List Char)} {a : Act}

/-- The act is one of a line of the text; that of a brace or a header is structural, or a fault. -/
def Act.Of (lines : List (List Char)) : Act → Prop
  | .line number text =>
      0 < number ∧ lines[number - 1]? = some text ∧ Block.mark (Text.trim text) = .plain
  | .structural number => 0 < number ∧ number ≤ lines.length
  | .fault number p => 0 < number ∧ number ≤ lines.length ∧ p.severity = .error

namespace Act

theorem Of.number_pos (h : a.Of lines) : 0 < a.number := by
  cases a <;> exact h.1

theorem Of.number_le (h : a.Of lines) : a.number ≤ lines.length := by
  cases a with
  | line number text =>
      obtain ⟨hpos, hline, -⟩ := h
      have hlt : number - 1 < lines.length := (List.getElem?_eq_some_iff.1 hline).1
      exact Nat.le_of_pred_lt hlt
  | structural number => exact h.2
  | fault number p => exact h.2.1

theorem Of.isSevere (h : a.Of lines) : a.IsSevere := by
  cases a with
  | line number text => trivial
  | structural number => trivial
  | fault number p => exact h.2.2

theorem Of.append (h : a.Of lines) (more : List (List Char)) : a.Of (lines ++ more) := by
  have hle : lines.length ≤ (lines ++ more).length := by simp
  cases a with
  | line number text =>
      refine ⟨h.1, ?_, h.2.2⟩
      rw [List.getElem?_append_left (List.getElem?_eq_some_iff.1 h.2.1).1]
      exact h.2.1
  | structural number => exact ⟨h.1, Nat.le_trans h.2 hle⟩
  | fault number p => exact ⟨h.1, Nat.le_trans h.2.1 hle, h.2.2⟩

end Act

end Build

namespace Block

open Build

variable {lines : List (List Char)} {a : Act}

theorem structural_mem_openActs {opens : List Open} {o : Open} (ho : o ∈ opens) :
    .structural o.start ∈ openActs opens := by
  induction opens with
  | nil => cases ho
  | cons o' outer ih =>
      rw [openActs]
      rcases List.mem_cons.1 ho with rfl | ho
      · exact List.mem_append_right _ (List.mem_singleton_self _)
      · exact List.mem_append_left _ (List.mem_append_left _ (ih ho))

/-- A closing brace repeats acts and adds those of its own line. -/
theorem Draft.mem_acts_close {d : Draft} {number : Nat} (h : a ∈ (d.close number).acts) :
    a ∈ d.acts ∨ a = .structural number ∨ a = .fault number .repeatUnopened := by
  obtain ⟨enclosing, level⟩ := d
  cases enclosing with
  | nil => simpa [close, acts_add, Block.acts] using h
  | cons o outer =>
      simp only [acts, openActs, close, Array.toList_push, actsOf_concat, Block.acts,
        List.mem_append, List.mem_cons, List.mem_flatten, List.mem_replicate, List.not_mem_nil,
        or_false] at h ⊢
      rcases h with h | h | (h | ⟨round, ⟨-, rfl⟩, h⟩) | h
      · exact .inl (.inl (.inl (.inl h)))
      · exact .inl (.inl (.inl (.inr h)))
      · exact .inl (.inl (.inr h))
      · exact .inl (.inr h)
      · exact .inr (.inl h)

/-- Every act is one of a line that has been read. -/
theorem Draft.of_mem_acts (lines : List (List Char)) (h : a ∈ (readFrom {} 1 lines).acts) :
    a.Of lines := by
  induction lines using List.reverseRecOn generalizing a with
  | nil => cases h
  | append_singleton lines text ih =>
      have hlength : (lines ++ [text]).length = 1 + lines.length := by simp [Nat.add_comm]
      rw [readFrom_append, readFrom, readFrom] at h
      have hstructural : (Act.structural (1 + lines.length)).Of (lines ++ [text]) :=
        ⟨Nat.add_pos_left Nat.one_pos _, Nat.le_of_eq hlength.symm⟩
      have hfault {p : Problem} (hp : p.severity = .error) :
          (Act.fault (1 + lines.length) p).Of (lines ++ [text]) :=
        ⟨Nat.add_pos_left Nat.one_pos _, Nat.le_of_eq hlength.symm, hp⟩
      cases hmark : mark (Text.trim text) with
      | plain =>
          rw [read_plain hmark, acts_add] at h
          rcases List.mem_append.1 h with h | h
          · exact (ih h).append _
          · rw [List.mem_singleton.1 h]
            exact ⟨Nat.add_pos_left Nat.one_pos _, by simp, hmark⟩
      | close =>
          rw [read_close hmark] at h
          rcases mem_acts_close h with h | rfl | rfl
          · exact (ih h).append _
          · exact hstructural
          · exact hfault rfl
      | header times =>
          rw [read_header hmark] at h
          have hsplit : a ∈ (readFrom {} 1 lines).acts ∨ a = .structural (1 + lines.length) := by
            simpa [acts, openActs, actsOf, or_assoc] using h
          rcases hsplit with h | rfl
          · exact (ih h).append _
          · exact hstructural
      | malformedHeader =>
          rw [read_malformed hmark, acts_add] at h
          rcases List.mem_append.1 h with h | h
          · exact (ih h).append _
          · rw [List.mem_singleton.1 h]
            exact hfault rfl

/-- The acts of the tree of a text are those of its lines. -/
theorem of_mem_actsOf_ofLines (h : a ∈ actsOf (ofLines lines)) : a.Of lines := by
  rw [ofLines, Draft.actsOf_finish] at h
  rcases List.mem_append.1 h with h | h
  · exact Draft.of_mem_acts lines h
  · obtain ⟨o, ho, rfl⟩ := List.mem_map.1 h
    have hopen : Act.structural o.start ∈ (readFrom {} 1 lines).acts :=
      List.mem_append_left _ (structural_mem_openActs ho)
    have hof : (Act.structural o.start).Of lines := Draft.of_mem_acts lines hopen
    exact ⟨hof.1, hof.2, rfl⟩

end Block

namespace Build

variable {ctx : Context} {a : Act}

theorem mem_of_mem_performed {s : State} {acts : List Act} (h : a ∈ performed ctx s acts) :
    a ∈ acts := by
  induction acts generalizing s with
  | nil => exact h
  | cons b rest ih =>
      rw [performed] at h
      rcases List.mem_cons.1 h with rfl | h
      · exact List.mem_cons_self
      · cases hstep : s.perform ctx b with
        | ok t =>
            rw [hstep] at h
            exact List.mem_cons_of_mem _ (ih h)
        | error e =>
            rw [hstep] at h
            cases h

/-- The acts of a run are those of its lines, and the end of the input. -/
theorem of_mem_course {lines : List (List Char)} (h : a ∈ course ctx lines) :
    a.Of lines ∨ a = .structural lines.length := by
  rcases List.mem_append.1 (mem_of_mem_performed h) with h | h
  · exact .inl (Block.of_mem_actsOf_ofLines h)
  · exact .inr (List.mem_singleton.1 h)

theorem isSevere_of_mem_course {lines : List (List Char)} (h : a ∈ course ctx lines) :
    a.IsSevere := by
  rcases of_mem_course h with h | rfl
  · exact h.isSevere
  · trivial

/-- What every edit and every error keeps, the line of the act and that of the directive in front of it
given, holds at the end of a run. -/
theorem finalState_induction {lines : List (List Char)} {P : State → Prop} (start : P {})
    (edit : ∀ a ∈ course ctx lines, ∀ r s t : State, P r → Edit a r.anchor.line? s t → P s → P t)
    (report : ∀ a ∈ course ctx lines, ∀ (r s : State) (line : Nat) (p : Problem), P r →
      (line = a.number ∨ r.anchor.line? = some line) → P s → P (s.report line p)) :
    P (finalState ctx lines) := by
  have hedited {a : Act} (ha : a ∈ course ctx lines) {r t : State} (hr : P r)
      (h : Edited a r.anchor.line? r t) : P t := by
    induction h with
    | refl => exact hr
    | tail _ hstep ih => exact edit a ha r _ _ hr hstep ih
  rw [finalState_eq_stateAfter]
  refine stateAfter_induction (P := fun acts s => (∀ a ∈ acts, a ∈ course ctx lines) → P s)
    (fun _ => start) (fun acts a s ih hacts => ?_) (course ctx lines) fun a ha => ha
  obtain ⟨hbefore, ha⟩ := List.forall_mem_append.1 hacts
  have ha := ha a (List.mem_singleton_self a)
  have hs := ih hbefore
  have hperform := editing_perform ctx s (isSevere_of_mem_course ha)
  unfold State.after
  cases hstep : s.perform ctx a with
  | ok t =>
      rw [hstep] at hperform
      exact hedited ha hs hperform
  | error e =>
      rw [hstep] at hperform
      obtain ⟨t, line, p, hedit, hline, -, he⟩ := hperform
      rw [leave, he]
      exact report a ha s t line p hs hline (hedited ha hs hedit)

end Build

end StimOverlay
