import StimOverlay.Proofs.Instruction.TargetProducts
import StimOverlay.Proofs.Record.BackwardReferences
import StimOverlay.Proofs.Source.NormalLines

/-! Building written lines. Nothing in a written line halts the building or calls for a diagnostic, and
apart from declarations nothing touches coordinates; gates and products come out as the operations that
were written, on renumbered qubits. -/

namespace StimOverlay

open Build Numeric

namespace Source

/-- A line whose first character is neither a blank nor a hash is an instruction, if anything. -/
theorem isInstruction_cons {c : Char} (hblank : Text.isBlank c = false) (hhash : c ≠ '#')
    (rest : List Char) :
    Build.State.isTrivia (c :: rest) = false ∧ isDirective (c :: rest) = false := by
  have hne : ('#' == c) = false := by simpa using hhash.symm
  have hstart : Text.trimStart (c :: rest) = c :: rest := by
    rw [Text.trimStart, List.dropWhile_cons_of_neg (by simp [hblank])]
  have hhash : ∀ more, Text.startsWith (c :: rest) ('#' :: more) = false := fun more => by
    rw [Text.startsWith, List.isPrefixOf_cons_cons, hne, Bool.false_and]
  have hcomment : isComment (c :: rest) = false := by
    unfold isComment
    rw [hstart]
    split
    · rfl
    · rfl
    · rename_i heq
      rw [(List.cons.inj heq).1] at hne
      cases hne
    · rfl
  have hdirective : isDirective (c :: rest) = false := by rw [isDirective, hstart, hhash]
  refine ⟨?_, hdirective⟩
  rw [Build.State.isTrivia, hcomment, hhash]
  rfl

/-- A settled line is an instruction, if anything. -/
theorem Settled.isInstruction {s : List Char} (h : Settled s) :
    Build.State.isTrivia s = false ∧ isDirective s = false := by
  obtain ⟨c, rest, rfl, hc⟩ := h.upper
  exact isInstruction_cons (not_blank_of_isUpper hc) (ne_hash_of_isUpper hc) rest

end Source

namespace Schedule

/-- A new layer of nothing adds nothing. -/
theorem getD_concat_nil (xs : List (List α)) (j : Nat) :
    (xs ++ [[]])[j]?.getD [] = xs[j]?.getD [] := by
  rw [List.getElem?_append]
  split
  · rfl
  · rename_i hj
    rw [List.getElem?_eq_none (Nat.not_lt.1 hj)]
    cases j - xs.length <;> rfl

/-- One more entry of the last of some lists. -/
theorem getD_concat_push (front : List (List α)) (last : List α) (a : α) (j : Nat) :
    (front ++ [last ++ [a]])[j]?.getD [] =
      (front ++ [last])[j]?.getD [] ++ if front.length = j then [a] else [] := by
  induction front generalizing j with
  | nil => cases j <;> simp
  | cons first front ih =>
      cases j with
      | zero => simp
      | succ j => simpa using ih j

/-- The overlays of each layer. -/
def overlays (s : Schedule) : List (List Overlay) := s.toList.map (·.overlays.toList)

theorem overlays_eq (s : Schedule) :
    s.overlays = s.finished.toList.map (·.overlays.toList) ++ [s.current.overlays.toList] := by
  simp [overlays, toList]

/-- The overlays of the layer at position `k`; none if there is no such layer. -/
def overlaysAt (s : Schedule) (k : Nat) : List Overlay := s.overlays[k]?.getD []

theorem overlaysAt_advance (s : Schedule) {l : Layer} (hl : l.overlays = #[]) (j : Nat) :
    (s.advance l).overlaysAt j = s.overlaysAt j := by
  rw [overlaysAt, overlays, toList_advance, List.map_append, List.map_singleton, hl]
  exact getD_concat_nil _ j

theorem overlaysAt_modify (s : Schedule) {f : Layer → Layer} (hf : ∀ l, (f l).overlays = l.overlays)
    (k j : Nat) : (s.modify k f).overlaysAt j = s.overlaysAt j := by
  have hsame : (s.modify k f).overlays = s.overlays := by
    rw [overlays, overlays, toList_modify]
    refine List.ext_getElem? fun i => ?_
    rw [List.getElem?_map, List.getElem?_map, List.getElem?_modify]
    cases s.toList[i]? with
    | none => rfl
    | some l => by_cases h : k = i <;> simp [h, hf]
  rw [overlaysAt, hsame, overlaysAt]

theorem overlaysAt_place (s : Schedule) (op : Operation) (j : Nat) :
    (s.place op).overlaysAt j = s.overlaysAt j := by
  rw [place]
  split
  · rename_i l hput
    have hl : l.overlays = s.current.overlays := by
      rw [Layer.put] at hput
      split at hput
      · cases hput
        rfl
      · split at hput
        · cases hput
        · cases hput
          rfl
    rw [overlaysAt, overlaysAt, overlays_eq, overlays_eq, hl]
  · exact overlaysAt_advance s rfl j

theorem overlaysAt_draw (s : Schedule) (o : Overlay) (j : Nat) :
    (s.modifyCurrent (·.draw o)).overlaysAt j =
      s.overlaysAt j ++ if s.position = j then [o] else [] := by
  have hpush := getD_concat_push (s.finished.toList.map (·.overlays.toList))
    s.current.overlays.toList o j
  rw [List.length_map] at hpush
  rw [overlaysAt, overlaysAt, overlays_eq, overlays_eq, ← show _ = s.position from
    Array.length_toList, ← hpush]
  simp [modifyCurrent, Layer.draw]

end Schedule

namespace Build

/-- Nothing is reported, waits, is declared or drawn between two states. -/
structure Quiet (s t : State) : Prop where
  diagnostics : t.diagnostics = s.diagnostics
  anchor : t.anchor = s.anchor
  contentSeen : t.contentSeen = s.contentSeen
  coords : t.circuit.coords = s.circuit.coords
  sheets : t.circuit.sheets = s.circuit.sheets
  overlays : ∀ j, t.circuit.schedule.overlaysAt j = s.circuit.schedule.overlaysAt j

theorem Quiet.refl (s : State) : Quiet s s := ⟨rfl, rfl, rfl, rfl, rfl, fun _ => rfl⟩

theorem Quiet.trans {s t u : State} (h : Quiet s t) (h' : Quiet t u) : Quiet s u :=
  ⟨h'.diagnostics.trans h.diagnostics, h'.anchor.trans h.anchor, h'.contentSeen.trans h.contentSeen,
    h'.coords.trans h.coords, h'.sheets.trans h.sheets, fun j => (h'.overlays j).trans (h.overlays j)⟩

theorem quiet_place (s : State) (op : Operation) : Quiet s (s.place op) := by
  have hplace : (s.place op).circuit.schedule = s.circuit.schedule.place op := by
    rw [State.place]
    split
    · rfl
    · split <;> rfl
  refine ⟨?_, ?_, ?_, ?_, ?_, fun j => hplace ▸ s.circuit.schedule.overlaysAt_place op j⟩
  all_goals
    rw [State.place]
    split
    · rfl
    · split <;> rfl

theorem quiet_markSites (s : State) (gate : Gate) (tag : String) (index : Binary32) (line : Nat)
    (sites : List Site) : Quiet s (s.markSites gate tag index line sites) := by
  induction sites generalizing s with
  | nil => exact .refl s
  | cons site sites ih =>
      have hfirst : Quiet s (s.mapSchedule (·.modify site.layer
          (·.mark (.onQubit gate tag [index] site.qubit line)))) :=
        ⟨rfl, rfl, rfl, rfl, rfl, fun j => Schedule.overlaysAt_modify _ (f := (·.mark _)) (fun _ => rfl) _ j⟩
      exact hfirst.trans (ih _)

variable {ctx : Context} {line : Nat} {text : List Char} {i : Instruction}

theorem buildLine_of_readable (h : Instruction.Readable text i) (s : State) :
    s.buildLine ctx line text =
      ({ s with contentSeen := true } : State).buildInstruction ctx line text i := by
  obtain ⟨htrivia, hdirective⟩ := h.settled.isInstruction
  rw [State.buildLine]
  simp only [h.settled.trimmed, htrivia, hdirective, h.read, Bool.false_eq_true, if_false]

theorem instruction?_of_readable (h : Instruction.Readable text i) :
    (Act.line line text).instruction? = some (line, i) := by
  obtain ⟨htrivia, hdirective⟩ := h.settled.isInstruction
  rw [Act.instruction?]
  simp [h.settled.trimmed, htrivia, hdirective, h.read, Except.toOption]

/-- Only a polygon has something to resolve, if nothing waits. -/
theorem resolve_of_free {s : State} (h : s.anchor = .free) {o : Outcome}
    (ho : ∀ body, o ≠ .polygon (some body)) (line : Nat) : s.resolve line o = .ok s := by
  obtain ⟨circuit, diagnostics, anchor, contentSeen, record, detectors, headers⟩ := s
  subst h
  cases o with
  | polygon body =>
      cases body with
      | none => rfl
      | some body => exact absurd rfl (ho body)
  | _ => rfl

/-- An instruction that is built quietly while nothing waits is all there is to its line. -/
theorem buildInstruction_of_build {s t : State} {source : List Char} {o : Outcome}
    (hbuild : s.build ctx line source i = .ok (o, t)) (ho : ∀ body, o ≠ .polygon body)
    (hs : s.anchor = .free) (ht : t.anchor = .free) :
    s.buildInstruction ctx line source i = .ok t := by
  rw [State.buildInstruction, hs]
  simp only [hbuild, bind, Except.bind, resolve_of_free ht (fun body => ho (some body)) line]

/-- An operation that can be written and read under new numbers. -/
structure Writable (n : Emission.Numbering) (op : Operation) : Prop where
  built : WellBuilt .standard op
  untagged : op.tag = ""
  bare : op.args = []
  distinct : (op.targets.map n.number).Nodup

/-- The operation on renumbered qubits as it is read back from a line; one that cannot be written stays
as it is. -/
def renumber (n : Emission.Numbering) (line : Nat) (op : Operation) : Operation :=
  if distinct : (op.targets.map n.number).Nodup then
    { gate := op.gate, tag := "", args := [], targets := op.targets.map n.number, line, distinct }
  else op

variable {n : Emission.Numbering} {op : Operation}

theorem Writable.renumber_eq (h : Writable n op) (line : Nat) :
    renumber n line op = ⟨op.gate, "", [], op.targets.map n.number, line, h.distinct⟩ :=
  dif_pos h.distinct

theorem Writable.make (h : Writable n op) (line : Nat) :
    Operation.make op.gate "" [] (op.targets.map n.number) line = .ok (renumber n line op) := by
  rw [h.renumber_eq, Operation.make, dif_pos h.distinct]

/-- The targets of an operation as they are read back. -/
def readTargets (n : Emission.Numbering) (op : Operation) : List Target :=
  op.targets.map fun q => .qubit (n.number q) false

theorem filterMap_readTargets (n : Emission.Numbering) (op : Operation) :
    (readTargets n op).filterMap Target.qubit? = op.targets.map n.number := by
  rw [readTargets, List.filterMap_map]
  exact List.filterMap_eq_map ▸ rfl

theorem find?_isClassical (n : Emission.Numbering) (op : Operation) :
    (readTargets n op).find? Target.isClassical = none := by
  rw [List.find?_eq_none]
  intro t ht
  obtain ⟨q, -, rfl⟩ := List.mem_map.1 ht
  exact Bool.false_ne_true

theorem gate_facts : ∀ g ∈ Gate.standard, g.name ≠ tickName ∧ g.name ≠ coordinatesName ∧
    g.name ≠ polygonName ∧ g.name ∉ Gate.productFamilies ∧
      Context.standard.catalog.alias? g.name = none ∧
        Context.standard.catalog.gate? g.name = some g := by
  decide +kernel

variable {g : Gate} {ops : List Operation}

/-- The instruction that operations of one gate are written as. -/
def gateInstruction (n : Emission.Numbering) (g : Gate) (ops : List Operation) : Instruction :=
  ⟨g.name, "", [], (ops.flatMap (·.targets)).map fun q => .qubit (n.number q) false⟩

theorem flatMap_readTargets (n : Emission.Numbering) (g : Gate) (ops : List Operation) :
    (gateInstruction n g ops).targets = ops.flatMap (readTargets n) := by
  rw [gateInstruction, List.map_flatMap]
  rfl

theorem length_readTargets (hops : ∀ op ∈ ops, Writable n op ∧ op.gate = g) :
    ∀ op ∈ ops, (readTargets n op).length = max g.arity 1 := by
  intro op hop
  obtain ⟨hwritable, hgate⟩ := hops op hop
  rw [readTargets, List.length_map, hwritable.built.count, hgate]

theorem chunks_gateInstruction (hops : ∀ op ∈ ops, Writable n op ∧ op.gate = g) :
    chunks (max g.arity 1) (gateInstruction n g ops).targets = ops.map (readTargets n) := by
  rw [flatMap_readTargets]
  exact chunks_flatMap (by omega) (length_readTargets hops)

theorem gateFault?_gateInstruction (n : Emission.Numbering) (g : Gate) (ops : List Operation) :
    (gateInstruction n g ops).targets.findSome? (gateFault? g (gateInstruction n g ops)) =
      none := by
  rw [List.findSome?_eq_none_iff]
  intro t ht
  obtain ⟨q, -, rfl⟩ := List.mem_map.1 ht
  rfl

theorem length_gateInstruction (hops : ∀ op ∈ ops, Writable n op ∧ op.gate = g) :
    (gateInstruction n g ops).targets.length % max g.arity 1 = 0 := by
  rw [flatMap_readTargets, List.length_flatMap, List.map_congr_left (length_readTargets hops),
    List.map_const', List.sum_replicate_nat, Nat.mul_mod_left]

theorem orient_false (chunk : List Target) : State.orient false chunk = chunk := by
  unfold State.orient
  split <;> rfl

theorem untilFault_map {l : List α} {f : α → Option β} {g : α → β} (h : ∀ a ∈ l, f a = some (g a)) :
    untilFault (l.map f) = l.map g := by
  induction l with
  | nil => rfl
  | cons a l ih =>
      rw [List.map_cons, List.map_cons, h a List.mem_cons_self, untilFault,
        ih fun b hb => h b (List.mem_cons_of_mem _ hb)]

theorem gateMoves_gateInstruction (hops : ∀ op ∈ ops, Writable n op ∧ op.gate = g) (line : Nat) :
    gateMoves .standard line (gateInstruction n g ops) g false =
      ops.map fun op => .place (renumber n line op) := by
  have hchunks : untilFault (((chunks (max g.arity 1) (gateInstruction n g ops).targets).map
      (State.orient false)).map (chunkMoves? .standard line (gateInstruction n g ops) g)) =
        ops.map fun op => [.place (renumber n line op)] := by
    rw [chunks_gateInstruction hops, List.map_map, List.map_map]
    refine untilFault_map fun op hop => ?_
    obtain ⟨hwritable, rfl⟩ := hops op hop
    have hkept : keptArgs op.gate.isMeasurement (gateInstruction n op.gate ops) = [] := by
      simp [keptArgs, gateInstruction]
    have htag : (gateInstruction n op.gate ops).tag = "" := rfl
    simp only [Function.comp_apply, orient_false, chunkMoves?, find?_isClassical,
      filterMap_readTargets, hkept, htag, hwritable.make line]
    rfl
  rw [gateMoves, gateFault?_gateInstruction, hchunks, if_neg (by
    simp [length_gateInstruction hops]), ← List.flatMap_def, List.map_eq_flatMap]

theorem applyChunks_readTargets (hops : ∀ op ∈ ops, Writable n op ∧ op.gate = g) (line : Nat)
    {i : Instruction} (htag : i.tag = "") (hargs : i.args = []) (s : State) :
    ∃ touched t, s.applyChunks .standard line i g (ops.map (readTargets n)) = .ok (touched, t) ∧
      Quiet s t := by
  induction ops generalizing s with
  | nil => exact ⟨[], s, rfl, .refl s⟩
  | cons op ops ih =>
      obtain ⟨hwritable, hgate⟩ := hops op List.mem_cons_self
      have hchunk : s.applyChunk .standard line i g (readTargets n op) =
          .ok ((renumber n line op).targets, s.place (renumber n line op)) := by
        subst hgate
        have hkept : keptArgs op.gate.isMeasurement i = [] := by simp [keptArgs, hargs]
        simp only [State.applyChunk, find?_isClassical, filterMap_readTargets, htag, hkept,
          hwritable.make line]
      obtain ⟨touched, t, happly, hquiet⟩ :=
        ih (fun op hop => hops op (List.mem_cons_of_mem _ hop)) (s.place (renumber n line op))
      refine ⟨(renumber n line op).targets ++ touched, t, ?_, (quiet_place s _).trans hquiet⟩
      rw [List.map_cons, State.applyChunks, hchunk]
      simp only [bind, Except.bind, happly]

theorem instructionMoves_gateInstruction (hg : g ∈ Gate.standard)
    (hplain : g.name ≠ detectorName ∧ g.name ≠ observableName)
    (hops : ∀ op ∈ ops, Writable n op ∧ op.gate = g) (k line : Nat) :
    instructionMoves .standard k line (gateInstruction n g ops) =
      ops.map fun op => .place (renumber n line op) := by
  obtain ⟨htick, hcoordinates, hpolygon, hfamily, halias, hgate⟩ := gate_facts g hg
  have hname : (gateInstruction n g ops).name = g.name := rfl
  rw [instructionMoves, hname, if_neg htick, if_neg (by simp [hcoordinates, hpolygon]),
    if_neg (by simp [hplain]), if_neg hfamily, namedMoves, hname, halias, hgate]
  exact gateMoves_gateInstruction hops line

theorem build_gateInstruction (hg : g ∈ Gate.standard)
    (hplain : g.name ≠ detectorName ∧ g.name ≠ observableName)
    (hops : ∀ op ∈ ops, Writable n op ∧ op.gate = g) (line : Nat) (source : List Char) (s : State) :
    ∃ o t, s.build .standard line source (gateInstruction n g ops) = .ok (o, t) ∧
      (∀ body, o ≠ .polygon body) ∧ Quiet s t := by
  obtain ⟨htick, hcoordinates, hpolygon, hfamily, halias, hgate⟩ := gate_facts g hg
  obtain ⟨touched, t, happly, hquiet⟩ :=
    applyChunks_readTargets hops line (i := gateInstruction n g ops) rfl rfl s
  have horient : (chunks (max g.arity 1) (gateInstruction n g ops).targets).map
      (State.orient false) = ops.map (readTargets n) := by
    rw [chunks_gateInstruction hops, List.map_map]
    exact List.map_congr_left fun op _ => orient_false _
  have hname : (gateInstruction n g ops).name = g.name := rfl
  refine ⟨if touched.isEmpty then .other else .applied g.name touched t.layer, t, ?_, ?_, hquiet⟩
  · rw [State.build, hname, if_neg htick, if_neg hcoordinates, if_neg hpolygon,
      if_neg (by simp [hplain]), if_neg hfamily, State.buildNamed, hname, halias]
    simp only [hgate, State.buildGate, gateFault?_gateInstruction, length_gateInstruction hops,
      horient, happly, bind, Except.bind, ne_eq, not_true_eq_false, if_false]
  · intro body
    split <;> exact Outcome.noConfusion

variable {family : String} {bases : Operation → List Pauli}

/-- The instruction that products of one family are written as. -/
def productInstruction (n : Emission.Numbering) (family : String) (bases : Operation → List Pauli)
    (ops : List Operation) : Instruction :=
  ⟨family, "", [], ops.flatMap fun op =>
    Instruction.productTargets (Emission.renumberedFactors n (bases op) op.targets)⟩

/-- What is known of operations that are written as products of one family. -/
def Multiplied (n : Emission.Numbering) (family : String) (bases : Operation → List Pauli)
    (ops : List Operation) : Prop :=
  ∀ op ∈ ops, Writable n op ∧ op.gate = .product family (bases op) ∧ bases op ≠ []

theorem Multiplied.factors (h : Multiplied n family bases ops) (hop : op ∈ ops) :
    (Emission.renumberedFactors n (bases op) op.targets).map (·.1) = bases op ∧
      (Emission.renumberedFactors n (bases op) op.targets).map (·.2) = op.targets.map n.number := by
  obtain ⟨hwritable, hgate, hne⟩ := h op hop
  have hlength : op.targets.length = (bases op).length := by
    have hcount := hwritable.built.count
    have hpos := List.length_pos_iff.2 hne
    rw [hgate, Gate.product] at hcount
    dsimp only at hcount
    omega
  rw [Emission.renumberedFactors, List.map_map, List.map_map]
  constructor
  · exact List.map_fst_zip (by omega)
  · have hsnd : ((bases op).zip op.targets).map Prod.snd = op.targets :=
      List.map_snd_zip (by omega)
    conv_rhs => rw [← hsnd, List.map_map]
    rfl

theorem productsAfter_productInstruction (h : Multiplied n family bases ops) :
    productsAfter false (productInstruction n family bases ops).targets =
      ([], ops.map fun op => Emission.renumberedFactors n (bases op) op.targets, none) := by
  have hne : ∀ factors ∈ ops.map (fun op => Emission.renumberedFactors n (bases op) op.targets),
      factors ≠ [] := by
    intro factors hfactors hnil
    obtain ⟨op, hop, rfl⟩ := List.mem_map.1 hfactors
    have hbases := (h.factors hop).1
    rw [hnil] at hbases
    exact (h op hop).2.2 hbases.symm
  have hproducts := productsAfter_flatMap hne
  rwa [List.flatMap_map] at hproducts

theorem make_product (h : Multiplied n family bases ops) (hop : op ∈ ops) (line : Nat) :
    Operation.make (.product family ((Emission.renumberedFactors n (bases op) op.targets).map (·.1)))
      "" [] ((Emission.renumberedFactors n (bases op) op.targets).map (·.2)) line =
        .ok (renumber n line op) := by
  obtain ⟨hwritable, hgate, -⟩ := h op hop
  rw [(h.factors hop).1, (h.factors hop).2, ← hgate]
  exact hwritable.make line

theorem family_facts : ∀ family ∈ Gate.productFamilies, family ≠ tickName ∧
    family ≠ coordinatesName ∧ family ≠ polygonName ∧ family ≠ detectorName ∧
      family ≠ observableName := by
  decide

theorem instructionMoves_productInstruction (hfamily : family ∈ Gate.productFamilies)
    (h : Multiplied n family bases ops) (k line : Nat) :
    instructionMoves .standard k line (productInstruction n family bases ops) =
      ops.map fun op => .place (renumber n line op) := by
  obtain ⟨htick, hcoordinates, hpolygon, hdetector, hobservable⟩ := family_facts family hfamily
  have hname : (productInstruction n family bases ops).name = family := rfl
  have hmoves : untilFault ((ops.map fun op =>
      Emission.renumberedFactors n (bases op) op.targets).map
        (productMove? line (productInstruction n family bases ops))) =
          ops.map fun op => .place (renumber n line op) := by
    rw [List.map_map]
    refine untilFault_map fun op hop => ?_
    rw [Function.comp_apply, productMove?]
    simp only [productInstruction, keptArgs, List.map_nil, ite_self, make_product h hop]
    rfl
  rw [instructionMoves, hname, if_neg htick, if_neg (by simp [hcoordinates, hpolygon]),
    if_neg (by simp [hdetector, hobservable]), if_pos hfamily, productMoves,
    productsAfter_productInstruction h]
  exact hmoves

theorem applyProducts_renumbered (h : Multiplied n family bases ops) (line : Nat) {i : Instruction}
    (hname : i.name = family) (htag : i.tag = "") (hargs : i.args = []) (s : State) :
    ∃ t, s.applyProducts line i (ops.map fun op =>
        Emission.renumberedFactors n (bases op) op.targets) = .ok t ∧ Quiet s t := by
  induction ops generalizing s with
  | nil => exact ⟨s, rfl, .refl s⟩
  | cons op ops ih =>
      have hproduct : s.applyProduct line i (Emission.renumberedFactors n (bases op) op.targets) =
          .ok (s.place (renumber n line op)) := by
        have hkept : keptArgs (i.name == Gate.measuringFamily) i = [] := by simp [keptArgs, hargs]
        simp only [State.applyProduct, hname, htag] at hkept ⊢
        simp only [hkept, make_product h List.mem_cons_self line]
      obtain ⟨t, happly, hquiet⟩ :=
        ih (fun op hop => h op (List.mem_cons_of_mem _ hop)) (s.place (renumber n line op))
      refine ⟨t, ?_, (quiet_place s _).trans hquiet⟩
      rw [List.map_cons, State.applyProducts, hproduct]
      simp only [bind, Except.bind, happly]

theorem build_productInstruction (hfamily : family ∈ Gate.productFamilies)
    (h : Multiplied n family bases ops) (line : Nat) (source : List Char) (s : State) :
    ∃ o t, s.build .standard line source (productInstruction n family bases ops) = .ok (o, t) ∧
      (∀ body, o ≠ .polygon body) ∧ Quiet s t := by
  obtain ⟨htick, hcoordinates, hpolygon, hdetector, hobservable⟩ := family_facts family hfamily
  have hname : (productInstruction n family bases ops).name = family := rfl
  obtain ⟨t, happly, hquiet⟩ :=
    applyProducts_renumbered h line (i := productInstruction n family bases ops) rfl rfl rfl s
  refine ⟨.applied family ((ops.map fun op => Emission.renumberedFactors n (bases op)
    op.targets).flatMap (·.map (·.2))) t.layer, t, ?_, ?_, hquiet⟩
  · rw [State.build, hname, if_neg htick, if_neg hcoordinates, if_neg hpolygon,
      if_neg (by simp [hdetector, hobservable]), if_pos hfamily, State.buildProducts,
      productsAfter_productInstruction h]
    simp only [happly, bind, Except.bind, hname]
  · exact fun body => Outcome.noConfusion

/-- The numbers in a record of `k` measurements that offsets refer to. -/
def numbersOf (k : Nat) (offsets : List Int) : List Nat := offsets.map fun o => ((k : Int) + o).toNat

theorem recordNumbers?_records {k : Nat} {offsets : List Int}
    (h : ∀ o ∈ offsets, o < 0 ∧ 0 ≤ (k : Int) + o) :
    recordNumbers? k (offsets.map .record) = some (numbersOf k offsets) := by
  induction offsets with
  | nil => rfl
  | cons o offsets ih =>
      rw [List.map_cons, recordNumbers?, ih fun p hp => h p (List.mem_cons_of_mem _ hp),
        recordNumber?, if_pos (h o List.mem_cons_self)]
      rfl

variable {offsets : List Int} {args : List Binary64}

theorem instructionMoves_detector {k : Nat} (h : ∀ o ∈ offsets, o < 0 ∧ 0 ≤ (k : Int) + o)
    (line : Nat) :
    instructionMoves .standard k line ⟨detectorName, "", args, offsets.map .record⟩ =
      [.detector "" line (numbersOf k offsets)] := by
  rw [instructionMoves_of_marker (.inl rfl), markerMoves, recordNumbers?_records h]
  rfl

theorem observableIndex?_natural {x : Binary64} (hx : x.isFinite) {index : Nat}
    (hindex : x.toRat = index) {i : Instruction} (hargs : i.args = [x]) :
    observableIndex? i = some x := by
  cases x with
  | nan negative => cases hx
  | infinite negative => cases hx
  | finite negative significand exponent h =>
      have hzero : (Binary.zero : Binary64).toRat = 0 := by decide +kernel
      have hwhole : (Binary.finite negative significand exponent h).isWhole := by
        simp [Binary.isWhole, hindex]
      have hsign : (Binary.finite negative significand exponent h).compare? .zero ≠ some .lt := by
        have hle : ¬(index : Rat) < 0 := not_lt.2 (Nat.cast_nonneg index)
        simp only [Binary.compare?, Binary.zero] at hzero ⊢
        rw [hindex, hzero, if_neg hle]
        split <;> simp
      rw [observableIndex?, hargs]
      simp [hwhole, hsign]

theorem instructionMoves_observable {k : Nat} (h : ∀ o ∈ offsets, o < 0 ∧ 0 ≤ (k : Int) + o)
    {x : Binary64} (hx : x.isFinite) {index : Nat} (hindex : x.toRat = index) (line : Nat) :
    instructionMoves .standard k line ⟨observableName, "", [x], offsets.map .record⟩ =
      [.observable x "" line (numbersOf k offsets)] := by
  rw [instructionMoves_of_marker (.inr rfl), markerMoves, recordNumbers?_records h,
    observableIndex?_natural hx hindex rfl]
  rfl

theorem marker_facts : ∀ name ∈ [detectorName, observableName],
    name ≠ tickName ∧ name ≠ coordinatesName ∧ name ≠ polygonName := by
  decide

theorem build_marker {i : Instruction} (hname : i.name = detectorName ∨ i.name = observableName)
    {s : State} (hnumbers : (recordNumbers? s.record.size i.targets).isSome)
    (hindex : i.name = observableName → (observableIndex? i).isSome) (line : Nat)
    (source : List Char) :
    ∃ t, s.build .standard line source i = .ok (.other, t) ∧ Quiet s t := by
  obtain ⟨numbers, hnumbers⟩ := Option.isSome_iff_exists.1 hnumbers
  obtain ⟨index, u, hmarker, hquiet⟩ : ∃ index u, s.markerIndex line i = .ok (index, u) ∧
      Quiet s u := by
    rcases hname with hname | hname
    · exact ⟨_, _, markerIndex_detector hname, ⟨rfl, rfl, rfl, rfl, rfl, fun _ => rfl⟩⟩
    · obtain ⟨x, hx⟩ := Option.isSome_iff_exists.1 (hindex hname)
      have hmarker := markerIndex_observable s line hname
      rw [hx] at hmarker
      exact ⟨_, s, hmarker, .refl s⟩
  obtain ⟨gate, hgate⟩ : ∃ gate, Context.standard.catalog.gate? i.name = some gate := by
    rcases hname with hname | hname
    · exact ⟨_, hname ▸ Tape.gate?_detector⟩
    · exact ⟨_, hname ▸ Tape.gate?_observable⟩
  refine ⟨u.markSites gate i.tag index line (numbers.filterMap (s.record[·]?)), ?_,
    hquiet.trans (quiet_markSites _ _ _ _ _ _)⟩
  have hnames := marker_facts i.name (by simpa using hname)
  rw [State.build, if_neg hnames.1, if_neg hnames.2.1, if_neg hnames.2.2, if_pos hname,
    State.buildMarker, sites_of_some hnumbers]
  simp only [hmarker, hgate, bind, Except.bind, Except.map]

theorem build_tick (line : Nat) (source : List Char) (s : State) :
    ∃ t, s.build .standard line source ⟨tickName, "", [], []⟩ = .ok (.other, t) ∧ Quiet s t :=
  ⟨_, rfl, rfl, rfl, rfl, rfl, rfl, fun j => s.circuit.schedule.overlaysAt_advance rfl j⟩

/-- The declaration of a place that no other qubit has changes nothing but the coordinates. -/
theorem build_coordinates {q : QubitId} {place : Point} {s : State}
    (hfree : s.circuit.qubitAt? place = none) (line : Nat) (source : List Char) :
    ∃ t, s.build .standard line source
        ⟨coordinatesName, "", [place.x, place.y], [.qubit q false]⟩ = .ok (.declared q, t) ∧
      t.circuit.coords = s.circuit.coords.insert q place ∧
        Quiet s { t with circuit := { t.circuit with coords := s.circuit.coords } } := by
  let declared : Circuit := { s.circuit with coords := s.circuit.coords.insert q place }
  have hdeclare : s.circuit.declare q place =
      .ok (declared.modifyQubit q (·.moveTo place)) := by
    rw [Circuit.declare, hfree]
  have hnames : coordinatesName ≠ tickName := by decide
  refine ⟨{ s with circuit := declared.modifyQubit q (·.moveTo place) }, ?_, rfl,
    ⟨rfl, rfl, rfl, rfl, rfl, fun _ => rfl⟩⟩
  rw [State.build, if_neg hnames, if_pos rfl, State.buildCoordinates]
  simp [hdeclare]

end Build

end StimOverlay
