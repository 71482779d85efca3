import StimOverlay.Proofs.Circuit.PackedCoordinates
import StimOverlay.Proofs.Record.RunRecord

/-! Origins of layers. Every operation and every marker in the layers of a parsed circuit has been put
there by a move of the run, so that whatever holds of all that moves put into layers holds of all that is
in them. -/

namespace StimOverlay

namespace Build

open Circuit

/-- What a move puts into layers when it is made behind `n` accepted detectors. -/
inductive Move.Puts (ctx : Context) (n : Nat) : Move → Operation → Prop
  | place (op : Operation) : Puts ctx n (.place op) op
  | mark (op : Operation) : Puts ctx n (.mark op) op
  | detector (tag : String) (line : Nat) (numbers : List Nat) {gate : Gate} (q : QubitId)
      (hgate : ctx.catalog.gate? detectorName = some gate) :
      Puts ctx n (.detector tag line numbers) (.onQubit gate tag [.ofNat .binary32 n] q line)
  | observable (index : Numeric.Binary64) (tag : String) (line : Nat) (numbers : List Nat) {gate : Gate}
      (q : QubitId) (hgate : ctx.catalog.gate? observableName = some gate) :
      Puts ctx n (.observable index tag line numbers)
        (.onQubit gate tag [index.convert .binary32] q line)

end Build

/-- Every operation and marker of the layer satisfies `P`. -/
def Layer.All (P : Operation → Prop) (l : Layer) : Prop := ∀ op ∈ l.operationsAndMarkers, P op

namespace Layer

variable {P : Operation → Prop} {l : Layer} {op : Operation}

theorem all_empty : Layer.empty.All P := fun op hop => by
  simp [operationsAndMarkers, empty] at hop

theorem All.mark (h : l.All P) (hop : P op) : (l.mark op).All P := by
  intro op' hop'
  rcases mem_mark.1 hop' with hop' | rfl
  · exact h op' hop'
  · exact hop

theorem All.insert (h : l.All P) (hop : P op) : (l.insert op).All P := by
  intro op' hop'
  rcases mem_insert.1 hop' with hop' | rfl
  · exact h op' hop'
  · exact hop

end Layer

namespace Build

open Circuit

variable {ctx : Context} {P : Operation → Prop}

namespace Tape

variable {t : Tape}

theorem all_markAll (h : ∀ l ∈ t.schedule.toList, l.All P) {marks : List (Nat × Operation)}
    (hmarks : ∀ e ∈ marks, P e.2) : ∀ l ∈ (t.markAll marks).schedule.toList, l.All P :=
  markAll_induction (P := fun s => ∀ l ∈ s.toList, l.All P) h fun e he _ hs =>
    Schedule.forall_modify hs _ fun _ hl => hl.mark (hmarks e he)

/-- What holds of all operations in the layers still does after a move that puts only such operations
there. -/
theorem all_move (h : ∀ l ∈ t.schedule.toList, l.All P) {m : Move}
    (hm : ∀ op, m.Puts ctx t.detectors op → P op) :
    ∀ l ∈ (t.move ctx m).schedule.toList, l.All P := by
  cases m with
  | tick => exact Schedule.forall_advance h Layer.all_empty
  | place op =>
      have hop := hm op (.place op)
      exact Schedule.forall_place h Layer.all_empty (fun _ hl => hl.mark hop) fun _ hl => hl.insert hop
  | mark op => exact Schedule.forall_modifyCurrent h fun _ hl => hl.mark (hm op (.mark op))
  | detector tag line numbers =>
      refine all_markAll h fun e he => ?_
      obtain ⟨gate, hgate, k, -, site, -, rfl⟩ := mem_marks.1 he
      exact hm _ (.detector tag line numbers site.qubit hgate)
  | observable index tag line numbers =>
      refine all_markAll h fun e he => ?_
      obtain ⟨gate, hgate, k, -, site, -, rfl⟩ := mem_marks.1 he
      exact hm _ (.observable index tag line numbers site.qubit hgate)

theorem detectors_move (ctx : Context) (t : Tape) (m : Move) :
    (t.move ctx m).detectors = t.detectors + ([m].filterMap Move.detector?).length := by
  cases m <;> rfl

/-- A run puts into layers what its moves put there, each behind at most as many detectors as the run
accepts. -/
theorem all_foldl {bound : Nat} {ms : List Move}
    (hms : ∀ m ∈ ms, ∀ n ≤ bound, ∀ op, m.Puts ctx n op → P op)
    (h : ∀ l ∈ t.schedule.toList, l.All P)
    (hbound : t.detectors + (ms.filterMap Move.detector?).length ≤ bound) :
    ∀ l ∈ (ms.foldl (move ctx) t).schedule.toList, l.All P := by
  induction ms generalizing t with
  | nil => exact h
  | cons m rest ih =>
      obtain ⟨hm, hrest⟩ := List.forall_mem_cons.1 hms
      have hlength : ((m :: rest).filterMap Move.detector?).length =
          ([m].filterMap Move.detector?).length + (rest.filterMap Move.detector?).length := by
        rw [← List.length_append, ← List.filterMap_append, List.singleton_append]
      refine ih hrest (all_move h (hm _ (Nat.le_of_add_right_le hbound))) ?_
      rw [detectors_move]
      omega

end Tape

/-- What holds of everything that the moves of a run put into layers holds of everything in the layers of
the parsed circuit. -/
theorem all_parseWith (ctx : Context) (text : String)
    (h : let ms := moves ctx (course ctx (Source.normalize text.toList))
      ∀ m ∈ ms, ∀ n ≤ (ms.filterMap Move.detector?).length, ∀ op, m.Puts ctx n op → P op) :
    ∀ l ∈ (parseWith ctx text).circuit.layers, l.All P := by
  intro l hl op hop
  obtain ⟨l', hl', hops, -⟩ := exists_layer_draft ctx text hl
  have hbare : l'.bare ∈ ((draft ctx text).schedule.map Layer.bare).toList := by
    rw [Schedule.toList_map]
    exact List.mem_map_of_mem hl'
  have htape : (draft ctx text).schedule.map Layer.bare =
      (Tape.after ctx (moves ctx (course ctx (Source.normalize text.toList)))).schedule := by
    rw [← tape_stateAfter, draft, finalState_eq_stateAfter]
    rfl
  have hstart : ∀ l ∈ ({} : Tape).schedule.toList, l.All P := by
    intro l hl
    rw [List.mem_singleton.1 hl]
    exact Layer.all_empty
  rw [htape] at hbare
  exact Tape.all_foldl h hstart (Nat.zero_add _).le l'.bare hbare op (hops ▸ hop)

end Build

end StimOverlay
