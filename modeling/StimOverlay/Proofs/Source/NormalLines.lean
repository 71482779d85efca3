import StimOverlay.Proofs.Instruction.WrittenTargets
import StimOverlay.Proofs.Run.ActSequence

/-! Texts of lines in normal form. The lines of such a text are the lines it was joined from, each of
them is one act, and a run that is not halted performs them all. -/

namespace StimOverlay

open Build

namespace Source

theorem dropPragmas_eq_self {text : List Char} (h : '#' ∉ text) : dropPragmas text = text := by
  have hplain : ∀ c ∈ text, (c != '#') = true := by
    intro c hc
    rw [bne_iff_ne]
    rintro rfl
    exact h hc
  have hrules : Text.eachContained (· != '#')
      (pragmaNames.map fun name => (pragmaMarker ++ name, name)) [] := by decide
  exact Text.replaceEach_append hrules hplain

/-- A line that stays one line and has no marker in it. -/
structure Solid (s : List Char) : Prop where
  nonempty : s ≠ []
  plain : ∀ c ∈ s, c ≠ ';' ∧ c ≠ '#' ∧ c ≠ '\n' ∧ c ≠ '\r'

theorem Settled.solid {s : List Char} (h : Settled s) : Solid s where
  nonempty := by
    obtain ⟨c, rest, rfl, -⟩ := h.upper
    exact List.cons_ne_nil c rest
  plain := h.plain

theorem lines_intercalate {texts : List (List Char)} (h : ∀ t ∈ texts, Solid t) :
    Text.lines (['\n'].intercalate texts) = texts := by
  cases texts using List.reverseRecOn with
  | nil => rfl
  | append_singleton earlier last =>
      have hsplit : Text.splitWhere (· == '\n') (['\n'].intercalate (earlier ++ [last])) =
          earlier ++ [last] := by
        refine Text.splitWhere_intercalate rfl (by simp) fun t ht c hc => ?_
        simpa using ((h t ht).plain c hc).2.2.1
      have hended : earlier.map (fun line => (Text.dropLast? '\r' line).getD line) = earlier := by
        conv_rhs => rw [← List.map_id' earlier]
        refine List.map_congr_left fun t ht => ?_
        have hlast : t.getLast? ≠ some '\r' := fun hlast =>
          ((h t (by simp [ht])).plain _ (List.mem_of_getLast? hlast)).2.2.2 rfl
        rw [Text.dropLast?, if_neg hlast, Option.getD_none]
      obtain ⟨c, rest, hlast⟩ := List.exists_cons_of_ne_nil (h last (by simp)).nonempty
      rw [Text.lines, hsplit]
      simp [hended, hlast]

/-- Solid lines between line feeds or semicolons are brought into normal form one by one. -/
theorem normalize_intercalate {texts : List (List Char)} (h : ∀ t ∈ texts, Solid t) {c : Char}
    (hc : c = '\n' ∨ c = ';') :
    normalize ([c].intercalate texts) = texts.map normalizeLine := by
  have hmap : ([c].intercalate texts).map (fun c => if c == ';' then '\n' else c) =
      ['\n'].intercalate texts := by
    have htexts : texts.map (List.map fun c => if c == ';' then '\n' else c) = texts := by
      refine (List.map_congr_left fun t ht => ?_).trans (List.map_id' texts)
      refine (List.map_congr_left fun d hd => ?_).trans (List.map_id' t)
      simp [((h t ht).plain d hd).1]
    rw [Text.map_intercalate, htexts]
    rcases hc with rfl | rfl <;> rfl
  have hhash : '#' ∉ ['\n'].intercalate texts := by
    intro hmem
    rcases Text.mem_intercalate hmem with hmem | ⟨t, ht, hmem⟩
    · exact absurd hmem (by decide)
    · exact ((h t ht).plain _ hmem).2.1 rfl
  rw [normalize, hmap, dropPragmas_eq_self hhash, lines_intercalate h]

end Source

namespace Block

theorem readFrom_of_unblocked {texts : List (List Char)}
    (h : ∀ t ∈ texts, mark (Text.trim t) = .plain) (d : Draft) (number : Nat) :
    readFrom d number texts =
      { d with level := d.level ++ ((texts.zipIdx number).map fun e => .line e.2 e.1).toArray } := by
  induction texts generalizing d number with
  | nil => simp [readFrom]
  | cons t texts ih =>
      have hread : d.read number t = d.add (.line number t) := by
        rw [Draft.read, h t List.mem_cons_self]
      rw [readFrom, hread, ih fun u hu => h u (List.mem_cons_of_mem _ hu)]
      simp [Draft.add]

theorem actsOf_map_line (l : List (List Char × Nat)) :
    actsOf (l.map fun e => .line e.2 e.1) = l.map fun e => .line e.2 e.1 := by
  induction l with
  | nil => rfl
  | cons e l ih => rw [List.map_cons, List.map_cons, actsOf, acts, ih, List.singleton_append]

end Block

namespace Build

/-- The acts of lines outside blocks, the first of which has the given number. -/
def lineActs (number : Nat) (texts : List (List Char)) : List Act :=
  (texts.zipIdx number).map fun e => .line e.2 e.1

theorem actsOf_of_unblocked {texts : List (List Char)}
    (h : ∀ t ∈ texts, Block.mark (Text.trim t) = .plain) :
    Block.actsOf (Block.ofLines texts) = lineActs 1 texts := by
  rw [Block.ofLines, Block.readFrom_of_unblocked h]
  simp [Block.Draft.finish, Block.actsOf_map_line, lineActs]

theorem actsOf_ofLines {texts : List (List Char)} (h : ∀ t ∈ texts, Source.Settled t) :
    Block.actsOf (Block.ofLines texts) = lineActs 1 texts :=
  actsOf_of_unblocked fun t ht => by rw [(h t ht).trimmed, (h t ht).unblocked]

theorem performed_of_ok {ctx : Context} {acts : List Act} {s t : State}
    (h : acts.foldlM (State.perform ctx) s = .ok t) : performed ctx s acts = acts := by
  induction acts generalizing s with
  | nil => rfl
  | cons a acts ih =>
      rw [List.foldlM_cons] at h
      cases hstep : s.perform ctx a with
      | error e => rw [hstep] at h; cases h
      | ok next =>
          rw [hstep] at h
          rw [performed, hstep]
          exact congrArg (a :: ·) (ih h)

/-- A run over lines outside blocks that is not halted performs every line. -/
theorem run_of_unblocked {ctx : Context} {texts : List (List Char)}
    (h : ∀ t ∈ texts, Block.mark (Text.trim t) = .plain) {s : State} (hfree : s.anchor = .free)
    (hrun : (lineActs 1 texts).foldlM (State.perform ctx) {} = .ok s) :
    finalState ctx texts = s ∧
      course ctx texts = lineActs 1 texts ++ [Act.structural texts.length] := by
  have hend : s.perform ctx (.structural texts.length) = .ok s := by
    obtain ⟨circuit, diagnostics, anchor, contentSeen, record, detectors, headers⟩ := s
    subst hfree
    rfl
  have hall : (lineActs 1 texts ++ [Act.structural texts.length]).foldlM (State.perform ctx) {} =
      .ok s := by
    rw [List.foldlM_append, hrun]
    simp [bind, Except.bind, hend]
    rfl
  constructor
  · rw [finalState, runLines_eq_foldlM, actsOf_of_unblocked h, hall]
  · rw [course, actsOf_of_unblocked h, performed_of_ok hall]

end Build

end StimOverlay
