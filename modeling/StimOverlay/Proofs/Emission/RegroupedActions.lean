import StimOverlay.Proofs.Emission.WrittenLayers

/-! Regrouped actions. Writing a layer heading by heading changes the order of its operations, but on
every qubit the same actions come in the same order: what a layer holds on one qubit is one action over
and over. -/

namespace StimOverlay

open Build Emission Numeric

namespace Operation

/-- Arguments that are numbers, so that they equal themselves. -/
def Numeral (args : List Binary32) : Prop := ∀ x ∈ args, x.isNaN = false

theorem sameArgs_refl {args : List Binary32} (h : Numeral args) : sameArgs args args := by
  induction args with
  | nil => rfl
  | cons x rest ih =>
      obtain ⟨hx, hrest⟩ := List.forall_mem_cons.1 h
      have hsame : x.same x := by
        rw [Binary.same_iff]
        cases x with
        | nan s => cases hx
        | infinite s => exact .inr ⟨s, rfl, rfl⟩
        | finite s m e h => exact .inl ⟨rfl, rfl, rfl⟩
      simp only [sameArgs, Bool.and_eq_true]
      exact ⟨hsame, ih hrest⟩

theorem sameAction_refl {op : Operation} (h : Numeral op.args) : op.sameAction op :=
  sameAction_iff.2 ⟨rfl, rfl, sameArgs_refl h, rfl⟩

theorem Compatible.sameAction {a b : Operation} (h : a.Compatible b) {q : QubitId}
    (ha : q ∈ a.targets) (hb : q ∈ b.targets) : a.sameAction b := by
  obtain ⟨hgate, htag, hargs, htargets, -⟩ := h ⟨q, ha, hb⟩
  exact sameAction_iff.2 ⟨congrArg Gate.name hgate, htag, hargs, htargets⟩

end Operation

namespace Build

open Operation

theorem finite_of_readArgs {parts : List (List Char)} {args : List Binary64}
    (h : Instruction.readArgs parts = .ok args) : ∀ x ∈ args, x.isFinite := by
  induction parts generalizing args with
  | nil =>
      cases h
      exact fun x hx => absurd hx List.not_mem_nil
  | cons part rest ih =>
      rw [Instruction.readArgs] at h
      split at h
      · exact ih h
      split at h
      · cases h
      rename_i x hread
      cases hrest : Instruction.readArgs rest with
      | error e =>
          rw [hrest] at h
          cases h
      | ok more =>
          rw [hrest] at h
          cases h
          rw [Binary.readFinite?, Option.filter_eq_some_iff] at hread
          exact List.forall_mem_cons.2 ⟨hread.2, ih hrest⟩

theorem finite_of_readArguments {line rest : List Char} {arguments : List Binary64 × List Char}
    (h : Instruction.readArguments line rest = .ok arguments) :
    ∀ x ∈ arguments.1, x.isFinite := by
  unfold Instruction.readArguments at h
  split at h
  · split at h
    · cases h
    rename_i args targets hsplit
    cases hread : Instruction.readArgs (Text.splitWhere (· == ',') args) with
    | error e =>
        rw [hread] at h
        cases h
    | ok read =>
        rw [hread] at h
        cases h
        exact finite_of_readArgs hread
  · split_ifs at h
    cases h
    exact fun x hx => absurd hx List.not_mem_nil

theorem finite_of_read {source : List Char} {i : Instruction}
    (h : Instruction.read source = .ok i) : ∀ x ∈ i.args, x.isFinite := by
  obtain ⟨line, -, rest, after, -, -, -, hargs, -⟩ := pieces_of_read h
  exact finite_of_readArguments hargs

theorem numeral_keptArgs {i : Instruction} (h : ∀ x ∈ i.args, x.isFinite) (measures : Bool) :
    Numeral (keptArgs measures i) := by
  rw [keptArgs]
  split_ifs
  · exact fun x hx => absurd hx List.not_mem_nil
  · intro x hx
    obtain ⟨y, hy, rfl⟩ := List.mem_map.1 hx
    cases y with
    | nan s => cases h _ hy
    | infinite s => cases h _ hy
    | finite s m e hm => exact Binary.isNaN_ofFraction ..

theorem numeral_of_mem_moves {ctx : Context} {acts : List Act} {op : Operation}
    (h : Move.place op ∈ moves ctx acts) : Numeral op.args := by
  obtain ⟨a, -, n, h⟩ := mem_movesFrom h
  obtain ⟨line, i, hi, h⟩ := instruction_of_mem_moves h
  obtain ⟨measures, hargs⟩ := (placedBy_of_instructionMoves h).2.args
  obtain ⟨text, -, hread⟩ := read_of_instruction? hi
  rw [hargs]
  exact numeral_keptArgs (finite_of_read hread) measures

variable {text : String} {l : Layer} {op : Operation}

/-- What stands in a layer has been placed there. -/
theorem place_of_mem_layer (hl : l ∈ (parse text).circuit.layers)
    (hop : op ∈ l.operations.toList) : Move.place op ∈ movesOf text := by
  obtain ⟨rest, htape, -⟩ := tapeOf_toList text
  have hbare : l.bare ∈ (tapeOf text).schedule.toList := by
    rw [htape]
    exact List.mem_append_left _ (List.mem_map_of_mem hl)
  have hmem : op ∈ (tapeOf text).schedule.operations.flatten :=
    List.mem_flatten.2 ⟨_, List.mem_map_of_mem hbare, hop⟩
  rw [(layered_tapeOf text).complete] at hmem
  obtain ⟨m, hm, hplaced⟩ := List.mem_filterMap.1 hmem
  cases m with
  | place op' =>
      rw [Move.operation?] at hplaced
      split_ifs at hplaced
      cases hplaced
      exact hm
  | _ => cases hplaced

/-- The operations of a layer on one qubit are the same action. -/
theorem sameAction_of_common (hl : l ∈ (parse text).circuit.layers) {a b : Operation}
    (ha : a ∈ l.operations.toList) (hb : b ∈ l.operations.toList) {q : QubitId}
    (hqa : q ∈ a.targets) (hqb : q ∈ b.targets) : a.sameAction b := by
  by_cases heq : a = b
  · exact heq ▸ sameAction_refl (numeral_of_mem_moves (place_of_mem_layer hl ha))
  · exact ((sound_parse text hl).compatible.forall ha hb heq).sameAction hqa hqb

/-- The operations that act, each with its layer, as they are written. -/
def actingOf (ls : List Line) : List (Nat × Operation) :=
  (written 0 ls).filter fun e => !e.2.gate.isMarker

/-- The operations of layers, each with its layer, as they were placed. -/
def placedIn (layers : List Layer) : List (Nat × Operation) :=
  layers.zipIdx.flatMap fun e => e.1.operations.toList.map (e.2, ·)

theorem acting_writtenOf (h : l.Filed) :
    (writtenOf l).filter (fun op => !op.gate.isMarker) = Layer.grouped l.operations.toList := by
  rw [writtenOf, List.filter_append, List.filter_eq_self.2, List.filter_eq_nil_iff.2,
    List.append_nil]
  · intro op hop
    have hop := (Layer.grouped_perm _).mem_iff.1 (List.mem_of_mem_filter hop)
    simp [h.markers op hop]
  · intro op hop
    simp [h.operations op ((Layer.grouped_perm _).mem_iff.1 hop)]

theorem actingOf_parse (text : String) (d : Detail) :
    actingOf (lines (parse text).circuit d) =
      (parse text).circuit.layers.zipIdx.flatMap fun e =>
        (Layer.grouped e.1.operations.toList).map (e.2, ·) := by
  rw [actingOf, written_parse, List.filter_flatMap]
  refine List.flatMap_congr fun e he => ?_
  rw [List.filter_map, ← acting_writtenOf (filed_parse (List.fst_mem_of_mem_zipIdx he))]
  rfl

/-- A layer has as many operations on a qubit when it is written, and each is the same action. -/
theorem forall₂_grouped (hl : l ∈ (parse text).circuit.layers) (k : Nat) (q : QubitId) :
    List.Forall₂ (fun a b : Nat × Operation => a.1 = b.1 ∧ a.2.sameAction b.2)
      (((Layer.grouped l.operations.toList).map (k, ·)).filter (q ∈ ·.2.targets))
      ((l.operations.toList.map (k, ·)).filter (q ∈ ·.2.targets)) := by
  have hperm := ((Layer.grouped_perm l.operations.toList).map (k, ·)).filter
    fun e => q ∈ e.2.targets
  refine List.forall₂_iff_zip.2 ⟨hperm.length_eq, fun {a b} hmem => ?_⟩
  obtain ⟨ha, hb⟩ := List.of_mem_zip hmem
  obtain ⟨ha, hqa⟩ := List.mem_filter.1 (hperm.mem_iff.1 ha)
  obtain ⟨hb, hqb⟩ := List.mem_filter.1 hb
  obtain ⟨op, hop, rfl⟩ := List.mem_map.1 ha
  obtain ⟨op', hop', rfl⟩ := List.mem_map.1 hb
  exact ⟨rfl, sameAction_of_common hl hop hop' (of_decide_eq_true hqa) (of_decide_eq_true hqb)⟩

theorem actingOf_perm (text : String) (d : Detail) :
    (actingOf (lines (parse text).circuit d)).Perm (placedIn (parse text).circuit.layers) := by
  rw [actingOf_parse, placedIn]
  exact .flatMap_left _ fun e _ => (Layer.grouped_perm _).map _

/-- On every qubit the same actions are written in the same order. -/
theorem forall₂_actingOf (text : String) (d : Detail) (q : QubitId) :
    List.Forall₂ (fun a b : Nat × Operation => a.1 = b.1 ∧ a.2.sameAction b.2)
      ((actingOf (lines (parse text).circuit d)).filter (q ∈ ·.2.targets))
      ((placedIn (parse text).circuit.layers).filter (q ∈ ·.2.targets)) := by
  rw [actingOf_parse, placedIn, List.filter_flatMap, List.filter_flatMap]
  have hsame : List.Forall₂ (fun e e' => e = e' ∧ e.1 ∈ (parse text).circuit.layers)
      (parse text).circuit.layers.zipIdx (parse text).circuit.layers.zipIdx :=
    List.forall₂_same.2 fun e he => ⟨rfl, List.fst_mem_of_mem_zipIdx he⟩
  refine List.rel_flatMap hsame ?_
  rintro ⟨l, k⟩ - ⟨rfl, hl⟩
  exact forall₂_grouped hl k q

end Build

end StimOverlay
