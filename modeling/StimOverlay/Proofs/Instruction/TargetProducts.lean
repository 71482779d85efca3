import StimOverlay.Proofs.Emission.LineReadings
import StimOverlay.Proofs.Run.PlacedOperations

/-! Combined targets. Combiners group the Pauli targets of an instruction into runs in one way only. Each
run becomes one product, and what is written for the products is grouped in the same way again. -/

namespace StimOverlay

open Build

/-- The factor of a product that a Pauli target stands for. -/
def Target.factor? : Target → Option (Pauli × QubitId)
  | pauli basis q _ => some (basis, q)
  | _ => none

/-- The target that spells a factor. -/
def Target.ofFactor (f : Pauli × QubitId) : Target := .pauli f.1 f.2 false

/-- The target that is written for a Pauli target: on its new number, without a mark. -/
def Target.rewritten (n : Emission.Numbering) : Target → Target
  | pauli basis q _ => .pauli basis (n.number q) false
  | t => t

theorem Target.ne_combiner {t : Target} (h : t.factor?.isSome) : t ≠ .combiner := by
  rintro rfl
  cases h

namespace Instruction

/-- Pauli targets in runs: single combiners between the targets of a run, none between runs. -/
structure Runs (ts : List Target) (runs : List (List Target)) : Prop where
  joined : ts = runs.flatMap (List.intersperse .combiner)
  nonempty : ∀ run ∈ runs, run ≠ []
  pauli : ∀ run ∈ runs, ∀ t ∈ run, t.factor?.isSome

variable {ts : List Target} {runs : List (List Target)} {run : List Target} {t : Target}

theorem head?_intersperse (hne : run ≠ []) (hpauli : ∀ t ∈ run, t.factor?.isSome)
    (rest : List Target) : (run.intersperse .combiner ++ rest).head? ≠ some .combiner := by
  obtain ⟨t, run, rfl⟩ := List.exists_cons_of_ne_nil hne
  have ht : t ≠ .combiner := Target.ne_combiner (hpauli t List.mem_cons_self)
  cases run <;> simpa using ht

namespace Runs

theorem head?_ne (h : Runs ts runs) : ts.head? ≠ some .combiner := by
  obtain ⟨rfl, hnonempty, hpauli⟩ := h
  cases runs with
  | nil => simp
  | cons run runs =>
      exact head?_intersperse (hnonempty run List.mem_cons_self) (hpauli run List.mem_cons_self) _

theorem tail (h : Runs ts (run :: runs)) : Runs (runs.flatMap (List.intersperse .combiner)) runs where
  joined := rfl
  nonempty r hr := h.nonempty r (List.mem_cons_of_mem _ hr)
  pauli r hr := h.pauli r (List.mem_cons_of_mem _ hr)

theorem nil : Runs [] [] where
  joined := rfl
  nonempty _ h := absurd h List.not_mem_nil
  pauli _ h := absurd h List.not_mem_nil

/-- A target that is a run by itself. -/
theorem single (h : Runs ts runs) (ht : t.factor?.isSome) : Runs (t :: ts) ([t] :: runs) where
  joined := by rw [List.flatMap_cons, ← h.joined]; rfl
  nonempty := List.forall_mem_cons.2 ⟨List.cons_ne_nil _ _, h.nonempty⟩
  pauli := List.forall_mem_cons.2 ⟨fun u hu => List.mem_singleton.1 hu ▸ ht, h.pauli⟩

/-- A target that is joined to the first run. -/
theorem join (h : Runs ts (run :: runs)) (ht : t.factor?.isSome) :
    Runs (t :: .combiner :: ts) ((t :: run) :: runs) where
  joined := by
    obtain ⟨u, run, rfl⟩ := List.exists_cons_of_ne_nil (h.nonempty run List.mem_cons_self)
    rw [h.joined]
    rfl
  nonempty := List.forall_mem_cons.2 ⟨List.cons_ne_nil _ _,
    fun r hr => h.nonempty r (List.mem_cons_of_mem _ hr)⟩
  pauli := List.forall_mem_cons.2 ⟨List.forall_mem_cons.2 ⟨ht, h.pauli run List.mem_cons_self⟩,
    fun r hr => h.pauli r (List.mem_cons_of_mem _ hr)⟩

end Runs

theorem spaced_of_readTargets {s : List Char} (h : readTargets s = .ok ts) : Spaced ts where
  head := (collected_of_readTargets h).2.1
  last := (collected_of_readTargets h).2.2.1
  apart := (collected_of_readTargets h).2.2.2

theorem Spaced.tail (h : Spaced (t :: ts)) (hhead : ts.head? ≠ some .combiner) : Spaced ts where
  head := hhead
  last hlast := h.last (by
    cases ts with
    | nil => cases hlast
    | cons u rest => rwa [List.getLast?_cons_cons])
  apart := by
    have hapart := h.apart
    cases t with
    | combiner => exact absurd rfl h.head
    | _ => exact hapart

/-- Something that is no combiner follows a combiner. -/
theorem Spaced.behind (h : Spaced (t :: .combiner :: ts)) : ts ≠ [] ∧ Spaced ts := by
  have hne : ts ≠ [] := by
    rintro rfl
    exact h.last rfl
  obtain ⟨u, rest, rfl⟩ := List.exists_cons_of_ne_nil hne
  have hlast : (u :: rest).getLast? ≠ some .combiner := by
    simpa only [List.getLast?_cons_cons] using h.last
  have hapart := h.apart
  cases t with
  | combiner => exact absurd rfl h.head
  | _ =>
      cases u with
      | combiner => cases hapart
      | _ => exact ⟨hne, by simp, hlast, hapart⟩

theorem exists_runs : ∀ {ts : List Target}, Spaced ts →
    (∀ t ∈ ts, t = .combiner ∨ t.factor?.isSome) → ∃ runs, Runs ts runs
  | [], _, _ => ⟨[], .nil⟩
  | [t], hspaced, hpauli => by
      have ht := (hpauli t List.mem_cons_self).resolve_left fun h => hspaced.head (h ▸ rfl)
      exact ⟨_, Runs.nil.single ht⟩
  | t :: u :: rest, hspaced, hpauli => by
      have ht := (hpauli t List.mem_cons_self).resolve_left fun h => hspaced.head (h ▸ rfl)
      have htail := fun v hv => hpauli v (List.mem_cons_of_mem _ hv)
      by_cases hu : u = .combiner
      · subst hu
        obtain ⟨hne, hrest⟩ := hspaced.behind
        obtain ⟨runs, hruns⟩ := exists_runs hrest fun v hv => htail v (List.mem_cons_of_mem _ hv)
        cases runs with
        | nil => exact absurd hruns.joined hne
        | cons run runs => exact ⟨_, hruns.join ht⟩
      · obtain ⟨runs, hruns⟩ := exists_runs (hspaced.tail (by simpa using hu)) htail
        exact ⟨_, hruns.single ht⟩

theorem intersperse_append_inj {run run' : List Target} (hne : run ≠ []) (hne' : run' ≠ [])
    {rest rest' : List Target} (hhead : rest.head? ≠ some .combiner)
    (hhead' : rest'.head? ≠ some .combiner)
    (h : run.intersperse .combiner ++ rest = run'.intersperse .combiner ++ rest') :
    run = run' ∧ rest = rest' := by
  induction run generalizing run' with
  | nil => exact absurd rfl hne
  | cons t run ih =>
      obtain ⟨t', run', rfl⟩ := List.exists_cons_of_ne_nil hne'
      cases run with
      | nil =>
          cases run' with
          | nil =>
              obtain ⟨rfl, rfl⟩ := List.cons.inj h
              exact ⟨rfl, rfl⟩
          | cons u' run' =>
              obtain ⟨-, rfl⟩ := List.cons.inj h
              exact absurd rfl hhead
      | cons u run =>
          cases run' with
          | nil =>
              obtain ⟨-, rfl⟩ := List.cons.inj h
              exact absurd rfl hhead'
          | cons u' run' =>
              obtain ⟨rfl, hbehind⟩ := List.cons.inj h
              obtain ⟨heq, rfl⟩ :=
                ih (List.cons_ne_nil _ _) (List.cons_ne_nil _ _) (List.cons.inj hbehind).2
              exact ⟨congrArg _ heq, rfl⟩

theorem Runs.eq_nil (h : Runs [] runs) : runs = [] := by
  cases runs with
  | nil => rfl
  | cons run runs =>
      obtain ⟨t, run, rfl⟩ := List.exists_cons_of_ne_nil (h.nonempty run List.mem_cons_self)
      have hjoined := h.joined
      cases run <;> cases hjoined

/-- Targets are in runs in one way. -/
theorem Runs.unique {other : List (List Target)} (h : Runs ts runs) (h' : Runs ts other) :
    other = runs := by
  induction runs generalizing ts other with
  | nil =>
      obtain rfl := h.joined
      exact h'.eq_nil
  | cons run runs ih =>
      cases other with
      | nil =>
          obtain rfl := h'.joined
          exact absurd h.eq_nil (List.cons_ne_nil _ _)
      | cons run' other =>
          obtain ⟨rfl, hrest⟩ := intersperse_append_inj (h.nonempty run List.mem_cons_self)
            (h'.nonempty run' List.mem_cons_self) h.tail.head?_ne h'.tail.head?_ne
            (h.joined.symm.trans h'.joined)
          have hother := h'.tail
          rw [← hrest] at hother
          rw [ih h.tail hother]

theorem getLast?_intersperse (hpauli : ∀ t ∈ run, t.factor?.isSome) :
    (run.intersperse .combiner).getLast? ≠ some .combiner := by
  induction run with
  | nil => simp
  | cons t run ih =>
      obtain ⟨ht, hrun⟩ := List.forall_mem_cons.1 hpauli
      cases run with
      | nil => simpa using Target.ne_combiner ht
      | cons u run =>
          have hne : (u :: run).intersperse .combiner ≠ [] := by cases run <;> simp
          rw [List.intersperse_cons_cons, List.getLast?_cons_cons, ← List.singleton_append,
            List.getLast?_append_of_ne_nil _ hne]
          exact ih hrun

/-- The factors of a run, in order. -/
def factorsOf (run : List Target) : Factors := run.filterMap Target.factor?

theorem productsAfter_intersperse (joined : Bool) (hne : run ≠ [])
    (hpauli : ∀ t ∈ run, t.factor?.isSome) :
    productsAfter joined (run.intersperse .combiner) =
      if joined then (factorsOf run, [], none) else ([], [factorsOf run], none) := by
  induction run generalizing joined with
  | nil => exact absurd rfl hne
  | cons t run ih =>
      obtain ⟨ht, hrun⟩ := List.forall_mem_cons.1 hpauli
      cases t with
      | pauli basis q inverted =>
          cases run with
          | nil => cases joined <;> rfl
          | cons u run =>
              rw [List.intersperse_cons_cons, productsAfter, productsAfter,
                ih true (List.cons_ne_nil _ _) hrun]
              cases joined <;> rfl
      | _ => cases ht

theorem productsAfter_runs (h : Runs ts runs) :
    productsAfter false ts = ([], runs.map factorsOf, none) := by
  induction runs generalizing ts with
  | nil => rw [h.joined]; rfl
  | cons run runs ih =>
      have hne := h.nonempty run List.mem_cons_self
      have hpauli := h.pauli run List.mem_cons_self
      rw [h.joined, List.flatMap_cons, productsAfter_append (fun _ => rfl)
        (getLast?_intersperse hpauli) h.tail.head?_ne, productsAfter_intersperse false hne hpauli,
        ih h.tail]
      rfl

theorem filterMap_intersperse (run : List Target) :
    (run.intersperse .combiner).filterMap Target.factor? = factorsOf run := by
  induction run with
  | nil => rfl
  | cons t run ih =>
      cases run with
      | nil => rfl
      | cons u run =>
          rw [List.intersperse_cons_cons, factorsOf, List.filterMap_cons, List.filterMap_cons,
            List.filterMap_cons, ih]
          rfl

theorem Runs.filterMap_factor? (h : Runs ts runs) :
    ts.filterMap Target.factor? = runs.flatMap factorsOf := by
  rw [h.joined, List.filterMap_flatMap]
  exact congrArg (runs.flatMap ·) (funext filterMap_intersperse)

/-- A run takes one combiner fewer than it has targets. -/
theorem count_intersperse (hne : run ≠ []) (hpauli : ∀ t ∈ run, t.factor?.isSome) :
    1 + (run.intersperse .combiner).count .combiner = (factorsOf run).length := by
  induction run with
  | nil => exact absurd rfl hne
  | cons t run ih =>
      obtain ⟨ht, hrun⟩ := List.forall_mem_cons.1 hpauli
      obtain ⟨f, hf⟩ := Option.isSome_iff_exists.1 ht
      have hcount : ∀ l : List Target, (t :: l).count .combiner = l.count .combiner := fun l =>
        List.count_cons_of_ne (Target.ne_combiner ht)
      cases run with
      | nil => simp [hcount, factorsOf, hf]
      | cons u run =>
          have ih := ih (List.cons_ne_nil _ _) hrun
          rw [List.intersperse_cons_cons, hcount, List.count_cons_self, factorsOf,
            List.filterMap_cons, hf, List.length_cons, ← factorsOf, ← ih]
          omega

theorem Runs.length_add_count (h : Runs ts runs) :
    runs.length + ts.count .combiner = (ts.filterMap Target.factor?).length := by
  rw [h.filterMap_factor?]
  induction runs generalizing ts with
  | nil =>
      obtain rfl := h.joined
      rfl
  | cons run runs ih =>
      have hrun := count_intersperse (h.nonempty run List.mem_cons_self) (h.pauli run List.mem_cons_self)
      have hrest := ih h.tail
      rw [h.joined, List.flatMap_cons, List.count_append, List.length_cons, List.flatMap_cons,
        List.length_append]
      omega

end Instruction

namespace Build

open Instruction

/-- The operation of one run of an instruction. -/
structure Multiplies (line : Nat) (i : Instruction) (run : List Target) (op : Operation) : Prop where
  gate : op.gate = .product i.name ((factorsOf run).map (·.1))
  tag : op.tag = i.tag
  args : op.args = keptArgs (i.name == Gate.measuringFamily) i
  targets : op.targets = (factorsOf run).map (·.2)
  line : op.line = line

theorem exists_operations {runs : List (List Target)}
    (h : ∀ run ∈ runs, ((factorsOf run).map (·.2)).Nodup) (line : Nat) (i : Instruction) :
    ∃ ops, List.Forall₂ (Multiplies line i) runs ops ∧
      ∀ s : State, s.applyProducts line i (runs.map factorsOf) = .ok (ops.foldl State.place s) := by
  induction runs with
  | nil => exact ⟨[], .nil, fun _ => rfl⟩
  | cons run runs ih =>
      obtain ⟨hrun, hruns⟩ := List.forall_mem_cons.1 h
      obtain ⟨ops, hops, happly⟩ := ih hruns
      let op : Operation := {
        gate := .product i.name ((factorsOf run).map (·.1))
        tag := i.tag
        args := keptArgs (i.name == Gate.measuringFamily) i
        targets := (factorsOf run).map (·.2)
        line
        distinct := hrun }
      refine ⟨op :: ops, .cons ⟨rfl, rfl, rfl, rfl, rfl⟩ hops, fun s => ?_⟩
      have hproduct : s.applyProduct line i (factorsOf run) = .ok (s.place op) := by
        rw [State.applyProduct]
        simp only [Operation.make, dif_pos hrun]
        rfl
      rw [List.map_cons, State.applyProducts, hproduct]
      exact happly (s.place op)

variable {line : Nat} {i : Instruction} {run : List Target} {op : Operation}
  {runs : List (List Target)} {ops : List Operation}

theorem flatMap_targets (h : List.Forall₂ (Multiplies line i) runs ops) :
    ops.flatMap (·.targets) = (runs.map factorsOf).flatMap (·.map (·.2)) := by
  induction h with
  | nil => rfl
  | cons hop _ ih => rw [List.flatMap_cons, hop.targets, ih, List.map_cons, List.flatMap_cons]

/-- What a product says of its bases and its qubits. -/
theorem Multiplies.factors (h : Multiplies line i run op) (hfamily : i.name ∈ Gate.productFamilies) :
    (op.gate.bases?.getD []).zip op.targets = (factorsOf run).map fun f => (f.1.letter, f.2) := by
  rw [h.gate, h.targets, Gate.bases?_product hfamily, Option.getD_some, List.map_map, List.zip_map']
  rfl

theorem flatMap_factors (h : List.Forall₂ (Multiplies line i) runs ops)
    (hfamily : i.name ∈ Gate.productFamilies) :
    ops.flatMap (fun op => (op.gate.bases?.getD []).zip op.targets) =
      (runs.flatMap factorsOf).map fun f => (f.1.letter, f.2) := by
  induction h with
  | nil => rfl
  | cons hop _ ih =>
      rw [List.flatMap_cons, hop.factors hfamily, ih, List.flatMap_cons, List.map_append]

/-- The factors of a run under their new numbers. -/
def renumberedFactorsOf (n : Emission.Numbering) (run : List Target) : Factors :=
  (factorsOf run).map fun f => (f.1, n.number f.2)

theorem Multiplies.toList_productText (h : Multiplies line i run op)
    (hfamily : i.name ∈ Gate.productFamilies) (n : Emission.Numbering) :
    (Emission.productText n op).toList = productChars (renumberedFactorsOf n run) := by
  rw [Emission.toList_productText hfamily h.gate, Emission.renumberedFactors, h.targets,
    List.zip_map', List.map_map]
  rfl

theorem productTargets_eq (factors : Factors) :
    productTargets factors = (factors.map Target.ofFactor).intersperse .combiner := by
  cases factors with
  | nil => rfl
  | cons f factors =>
      induction factors generalizing f with
      | nil => rfl
      | cons g factors ih =>
          exact congrArg (fun ts => Target.ofFactor f :: .combiner :: ts) (ih g)

/-- Products are spelled as runs. -/
theorem runs_productTargets {products : List Factors} (h : ∀ factors ∈ products, factors ≠ []) :
    Runs (products.flatMap productTargets) (products.map (·.map Target.ofFactor)) where
  joined := by
    rw [List.flatMap_map]
    exact congrArg (products.flatMap ·) (funext productTargets_eq)
  nonempty run hrun := by
    obtain ⟨factors, hfactors, rfl⟩ := List.mem_map.1 hrun
    simpa using h factors hfactors
  pauli run hrun t ht := by
    obtain ⟨factors, -, rfl⟩ := List.mem_map.1 hrun
    obtain ⟨f, -, rfl⟩ := List.mem_map.1 ht
    rfl

theorem factorsOf_ofFactor (factors : Factors) : factorsOf (factors.map Target.ofFactor) = factors := by
  rw [factorsOf, List.filterMap_map]
  exact List.filterMap_some

theorem productsAfter_flatMap {products : List Factors} (h : ∀ factors ∈ products, factors ≠ []) :
    productsAfter false (products.flatMap productTargets) = ([], products, none) := by
  rw [productsAfter_runs (runs_productTargets h), List.map_map,
    (funext factorsOf_ofFactor : factorsOf ∘ List.map Target.ofFactor = id), List.map_id]

theorem ofFactor_renumberedFactorsOf (n : Emission.Numbering)
    (hpauli : ∀ t ∈ run, t.factor?.isSome) :
    (renumberedFactorsOf n run).map Target.ofFactor = run.map (Target.rewritten n) := by
  induction run with
  | nil => rfl
  | cons t run ih =>
      obtain ⟨ht, hrun⟩ := List.forall_mem_cons.1 hpauli
      cases t with
      | pauli basis q inverted => exact congrArg _ (ih hrun)
      | _ => cases ht

theorem toList_productTexts (hops : List.Forall₂ (Multiplies line i) runs ops)
    (hfamily : i.name ∈ Gate.productFamilies) (n : Emission.Numbering) :
    ops.map (fun op => (Emission.productText n op).toList) =
      runs.map fun run => productChars (renumberedFactorsOf n run) := by
  induction hops with
  | nil => rfl
  | cons hop _ ih => rw [List.map_cons, List.map_cons, hop.toList_productText hfamily, ih]

theorem factorsOf_ne_nil (hne : run ≠ []) (hpauli : ∀ t ∈ run, t.factor?.isSome) :
    factorsOf run ≠ [] := by
  have hcount := count_intersperse hne hpauli
  intro hnil
  rw [hnil, List.length_nil] at hcount
  omega

/-- The texts of products are read in the runs that the products were built from. -/
theorem readTargets_productTexts {ts : List Target} (h : Runs ts runs)
    (hops : List.Forall₂ (Multiplies line i) runs ops) (hfamily : i.name ∈ Gate.productFamilies)
    {n : Emission.Numbering} (hn : ∀ f ∈ ts.filterMap Target.factor?, n.number f.2 ≤ maxQubitId) :
    ∃ written, readTargets (String.intercalate " " (ops.map (Emission.productText n))).toList =
      .ok written ∧ Runs written (runs.map (·.map (Target.rewritten n))) := by
  let products := runs.map (renumberedFactorsOf n)
  let words := products.map fun factors => (productChars factors, productTargets factors)
  have htext : (String.intercalate " " (ops.map (Emission.productText n))).toList =
      sentence words := by
    rw [String.toList_intercalate, List.map_map, sentence, List.map_map, List.map_map]
    exact congrArg _ (toList_productTexts hops hfamily n)
  have hne : ∀ factors ∈ products, factors ≠ [] := by
    intro factors hfactors
    obtain ⟨run, hrun, rfl⟩ := List.mem_map.1 hfactors
    simpa [renumberedFactorsOf] using factorsOf_ne_nil (h.nonempty run hrun) (h.pauli run hrun)
  have hwords : ∀ w ∈ words, Word Source.isFactor w := by
    intro w hw
    obtain ⟨factors, hfactors, rfl⟩ := List.mem_map.1 hw
    refine word_product (hne factors hfactors) fun f hf => ?_
    obtain ⟨run, hrun, rfl⟩ := List.mem_map.1 hfactors
    obtain ⟨e, he, rfl⟩ := List.mem_map.1 hf
    exact hn e (h.filterMap_factor? ▸ List.mem_flatMap.2 ⟨run, hrun, he⟩)
  have hwritten : words.flatMap (·.2) = products.flatMap productTargets := List.flatMap_map ..
  have hspaced : Spaced (words.flatMap (·.2)) :=
    hwritten ▸ spaced_flatMap fun factors _ => spaced_product factors
  have hruns : products.map (·.map Target.ofFactor) = runs.map (·.map (Target.rewritten n)) := by
    rw [List.map_map]
    exact List.map_congr_left fun run hrun => ofFactor_renumberedFactorsOf n (h.pauli run hrun)
  refine ⟨words.flatMap (·.2), htext ▸ readTargets_sentence hwords hspaced, ?_⟩
  rw [hwritten, ← hruns]
  exact runs_productTargets hne

/-- **Products by combiners.** Accepted Pauli targets are in runs in one way, and unless a run repeats a
qubit each becomes one product, in order. The products keep all bases and qubits, and when they are
written their targets are read in the same runs. -/
theorem buildProducts_runs {text : List Char} (hread : readTargets text = .ok i.targets)
    (hfamily : i.name ∈ Gate.productFamilies)
    (hpauli : ∀ t ∈ i.targets, t = .combiner ∨ t.factor?.isSome) :
    ∃ runs, Runs i.targets runs ∧ (∀ other, Runs i.targets other → other = runs) ∧
      ((∀ run ∈ runs, ((factorsOf run).map (·.2)).Nodup) → ∀ line, ∃ ops,
        List.Forall₂ (Multiplies line i) runs ops ∧
        (∀ s : State, s.buildProducts line i =
          .ok (.applied i.name (ops.flatMap (·.targets)) (ops.foldl State.place s).layer,
            ops.foldl State.place s)) ∧
        ops.flatMap (fun op => (op.gate.bases?.getD []).zip op.targets) =
          (i.targets.filterMap Target.factor?).map (fun f => (f.1.letter, f.2)) ∧
        ops.length + i.targets.count .combiner =
          (i.targets.filterMap Target.factor?).length ∧
        ∀ n : Emission.Numbering,
          (∀ f ∈ i.targets.filterMap Target.factor?, n.number f.2 ≤ maxQubitId) →
          ∃ written,
            readTargets (String.intercalate " " (ops.map (Emission.productText n))).toList =
              .ok written ∧
            Runs written (runs.map (·.map (Target.rewritten n)))) := by
  obtain ⟨runs, hruns⟩ := exists_runs (spaced_of_readTargets hread) hpauli
  refine ⟨runs, hruns, fun other => hruns.unique, fun hnodup line => ?_⟩
  obtain ⟨ops, hops, happly⟩ := exists_operations hnodup line i
  refine ⟨ops, hops, fun s => ?_, ?_, ?_, fun n hn => readTargets_productTexts hruns hops hfamily hn⟩
  · rw [State.buildProducts, productsAfter_runs hruns, flatMap_targets hops]
    simp only [happly]
    rfl
  · rw [flatMap_factors hops hfamily, hruns.filterMap_factor?]
  · rw [← hops.length_eq, hruns.length_add_count]

/-- A product of three, one of which is inverted, in front of a single one on a qubit of it. -/
def tripleAndSingle : Instruction :=
  ⟨"MPP", "t", [], [.pauli .x 1 false, .combiner, .pauli .y 2 true, .combiner, .pauli .z 7 false,
    .pauli .z 2 false]⟩

theorem buildProducts_tripleAndSingle :
    ∃ ops, List.Forall₂ (Multiplies 4 tripleAndSingle)
        [[.pauli .x 1 false, .pauli .y 2 true, .pauli .z 7 false], [.pauli .z 2 false]] ops ∧
      (∀ s : State, ∃ o, s.buildProducts 4 tripleAndSingle = .ok (o, ops.foldl State.place s)) ∧
      ops.length + 2 = 4 ∧
      ∃ written, readTargets (String.intercalate " "
          (ops.map (Emission.productText (.ofList [1, 2, 7])))).toList = .ok written ∧
        Runs written
          [[.pauli .x 0 false, .pauli .y 1 false, .pauli .z 2 false], [.pauli .z 1 false]] := by
  have hread : readTargets "X1*!Y2 *z7,Z2".toList = .ok tripleAndSingle.targets := by decide +kernel
  obtain ⟨runs, -, hunique, hbuild⟩ := buildProducts_runs hread (by decide) (by decide)
  have hruns : Runs tripleAndSingle.targets
      [[.pauli .x 1 false, .pauli .y 2 true, .pauli .z 7 false], [.pauli .z 2 false]] :=
    ⟨rfl, by decide, by decide⟩
  obtain rfl := hunique _ hruns
  obtain ⟨ops, hops, hbuilt, -, hlength, hwritten⟩ := hbuild (by decide) 4
  have hnumbers : ∀ f ∈ tripleAndSingle.targets.filterMap Target.factor?,
      (Emission.Numbering.ofList [1, 2, 7]).number f.2 ≤ maxQubitId := by
    decide +kernel
  exact ⟨ops, hops, fun s => ⟨_, hbuilt s⟩, hlength, hwritten (.ofList [1, 2, 7]) hnumbers⟩

end Build

end StimOverlay
