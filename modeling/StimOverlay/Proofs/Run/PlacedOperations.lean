import StimOverlay.Proofs.Run.StepChanges

/-! What a run builds. Every operation that is placed acts on as many qubits as its gate takes, and is
named by circuit text; so every measurement enters the record, and the tape at the end of a run is the
one that the moves of the run lead to. -/

namespace StimOverlay

namespace Build

open Numeric

/-- A gate that an instruction can be for: one of the catalog, or a Pauli product. -/
def Context.Knows (ctx : Context) (g : Gate) : Prop :=
  (∃ name, ctx.catalog.gate? name = some g) ∨
    ∃ family ∈ Gate.productFamilies, ∃ bases, bases ≠ [] ∧ g = Gate.product family bases

/-- What is certain of an operation that an instruction places. -/
structure WellBuilt (ctx : Context) (op : Operation) : Prop where
  known : ctx.Knows op.gate
  count : op.targets.length = max op.gate.arity 1
  named : ∀ q ∈ op.targets, q ≤ maxQubitId

theorem WellBuilt.targets_ne_nil {ctx : Context} {op : Operation} (h : WellBuilt ctx op) :
    op.targets ≠ [] := by
  intro hnil
  have hcount := h.count
  rw [hnil, List.length_nil] at hcount
  omega

/-- An instruction whose qubits have numbers that circuit text may use. -/
def InRange (i : Instruction) : Prop :=
  ∀ t ∈ i.targets, ∀ q, t.qubit? = some q → q ≤ maxQubitId

/-- The targets that are collected are those of the lexemes, and their qubits have numbers that circuit
text may use. -/
theorem mem_of_collectTargets {lexemes : List Lexeme} {ts : List Target}
    (h : Instruction.collectTargets lexemes = .ok ts) :
    ∀ t ∈ ts, (∃ text, .target t text ∈ lexemes) ∧ ∀ q, t.qubit? = some q → q ≤ maxQubitId := by
  induction lexemes generalizing ts with
  | nil =>
      cases h
      exact fun t ht => absurd ht List.not_mem_nil
  | cons l rest ih =>
      have hrest {ts : List Target} (h : Instruction.collectTargets rest = .ok ts) :
          ∀ t ∈ ts, (∃ text, .target t text ∈ l :: rest) ∧
            ∀ q, t.qubit? = some q → q ≤ maxQubitId := fun t ht =>
        have ⟨⟨text, htext⟩, hq⟩ := ih h t ht
        ⟨⟨text, List.mem_cons_of_mem _ htext⟩, hq⟩
      cases l with
      | gap text => exact hrest h
      | stray text => cases h
      | target t text =>
          rw [Instruction.collectTargets] at h
          split at h
          · cases h
          · rename_i hlarge
            cases hmore : Instruction.collectTargets rest with
            | error e =>
                rw [hmore] at h
                cases h
            | ok more =>
                rw [hmore] at h
                cases h
                refine List.forall_mem_cons.2 ⟨⟨⟨text, List.mem_cons_self⟩, fun q hq => ?_⟩, hrest hmore⟩
                rw [hq] at hlarge
                simpa using hlarge

/-- The targets that are read are those that are collected, unless a combiner is misplaced. -/
theorem collected_of_readTargets {s : List Char} {ts : List Target}
    (h : Instruction.readTargets s = .ok ts) :
    Instruction.collectTargets (Lexeme.scan s) = .ok ts ∧ ts.head? ≠ some .combiner ∧
      ts.getLast? ≠ some .combiner ∧ Instruction.hasDoubleCombiner ts = false := by
  unfold Instruction.readTargets at h
  cases hcollect : Instruction.collectTargets (Lexeme.scan s) with
  | error e =>
      rw [hcollect] at h
      cases h
  | ok collected =>
      rw [hcollect] at h
      simp only [bind, Except.bind] at h
      split_ifs at h with hmisplaced
      cases h
      simp only [Bool.or_eq_true, decide_eq_true_eq, not_or, Bool.not_eq_true] at hmisplaced
      exact ⟨rfl, hmisplaced.1.1, hmisplaced.1.2, hmisplaced.2⟩

theorem readTargets_le {s : List Char} {ts : List Target}
    (h : Instruction.readTargets s = .ok ts) :
    ∀ t ∈ ts, ∀ q, t.qubit? = some q → q ≤ maxQubitId :=
  fun t ht => (mem_of_collectTargets (collected_of_readTargets h).1 t ht).2

/-- The pieces of a line that is read as an instruction. -/
theorem pieces_of_read {source : List Char} {i : Instruction}
    (h : Instruction.read source = .ok i) : ∃ line name rest after,
      line.takeWhile (!Text.endsName ·) = name ∧ Instruction.isName name ∧
      i.name = String.ofList (name.map Char.toUpper) ∧
      Instruction.readArguments line rest = .ok (i.args, after) ∧
      Instruction.readTargets (Text.trim after) = .ok i.targets := by
  unfold Instruction.read at h
  dsimp only at h
  split at h
  · cases h
  · rename_i hname
    simp only [bind, Except.bind] at h
    split at h
    · cases h
    · split at h
      · cases h
      · rename_i hargs
        split at h
        · cases h
        · rename_i htargets
          cases h
          exact ⟨_, _, _, _, rfl, by simpa using hname, rfl, hargs, htargets⟩

theorem inRange_of_read {source : List Char} {i : Instruction}
    (h : Instruction.read source = .ok i) : InRange i := by
  obtain ⟨-, -, -, after, -, -, -, -, htargets⟩ := pieces_of_read h
  exact readTargets_le htargets

theorem read_of_instruction? {a : Act} {line : Nat} {i : Instruction}
    (h : a.instruction? = some (line, i)) :
    ∃ text, a = .line line text ∧ Instruction.read (Text.trim text) = .ok i := by
  cases a with
  | line number text =>
      rw [Act.instruction?] at h
      split at h
      · cases h
      · rw [Option.map_eq_some_iff] at h
        obtain ⟨j, hj, hpair⟩ := h
        cases hpair
        cases hread : Instruction.read (Text.trim text) with
        | error e =>
            rw [hread] at hj
            cases hj
        | ok j' =>
            rw [hread] at hj
            cases hj
            exact ⟨text, rfl, hread⟩
  | structural number => cases h
  | fault number problem => cases h

theorem inRange_of_instruction? {a : Act} {line : Nat} {i : Instruction}
    (h : a.instruction? = some (line, i)) : InRange i := by
  obtain ⟨text, -, hread⟩ := read_of_instruction? h
  exact inRange_of_read hread

theorem mem_untilFault {l : List (Option α)} {a : α} (h : a ∈ untilFault l) : some a ∈ l := by
  induction l with
  | nil => exact absurd h List.not_mem_nil
  | cons o rest ih =>
      cases o with
      | none => exact absurd h List.not_mem_nil
      | some b =>
          rcases List.mem_cons.1 h with rfl | h
          · exact List.mem_cons_self
          · exact List.mem_cons_of_mem _ (ih h)

theorem chunksAfter_length {size room : Nat} {l : List α} (hroom : room ≤ l.length)
    (hsize : 0 < size) (h : (l.length - room) % size = 0) :
    (chunksAfter size room l).1.length = room ∧
      ∀ c ∈ (chunksAfter size room l).2, c.length = size := by
  induction l generalizing room with
  | nil =>
      have hzero : room = 0 := by
        rw [List.length_nil] at hroom
        omega
      subst hzero
      exact ⟨rfl, fun c hc => absurd hc List.not_mem_nil⟩
  | cons a rest ih =>
      rw [List.length_cons] at hroom h
      cases room with
      | zero =>
          have hfull : size ≤ rest.length + 1 := Nat.le_of_dvd (by omega) (Nat.dvd_of_mod_eq_zero h)
          have hmod : (rest.length - (size - 1)) % size = 0 := by
            rw [show rest.length - (size - 1) = rest.length + 1 - 0 - size by omega,
              ← Nat.mod_eq_sub_mod (by omega)]
            exact h
          obtain ⟨hfirst, hmore⟩ := @ih (size - 1) (by omega) hmod
          refine ⟨rfl, fun c hc => ?_⟩
          simp only [chunksAfter, List.mem_cons] at hc
          rcases hc with rfl | hc
          · rw [List.length_cons, hfirst]
            omega
          · exact hmore c hc
      | succ room =>
          obtain ⟨hfirst, hmore⟩ := @ih room (by omega) (by
            rw [show rest.length - room = rest.length + 1 - (room + 1) by omega]
            exact h)
          refine ⟨?_, hmore⟩
          simp only [chunksAfter, List.length_cons, hfirst]

theorem length_of_mem_chunks {size : Nat} {l : List α} (hsize : 0 < size)
    (h : l.length % size = 0) {c : List α} (hc : c ∈ chunks size l) : c.length = size :=
  (chunksAfter_length (Nat.zero_le _) hsize (by rwa [Nat.sub_zero])).2 c hc

theorem chunksAfter_append (size : Nat) (chunk rest : List α) :
    chunksAfter size chunk.length (chunk ++ rest) = (chunk, chunks size rest) := by
  induction chunk with
  | nil => cases rest <;> rfl
  | cons a chunk ih =>
      rw [List.length_cons, List.cons_append, chunksAfter, ih]

theorem chunks_flatten_append {size : Nat} (hsize : 0 < size) {l : List (List α)}
    (h : ∀ c ∈ l, c.length = size) (rest : List α) :
    chunks size (l.flatten ++ rest) = l ++ chunks size rest := by
  induction l with
  | nil => rfl
  | cons c l ih =>
      have hc := h c List.mem_cons_self
      obtain ⟨a, chunk, rfl⟩ := List.exists_cons_of_length_pos (hc ▸ hsize)
      rw [List.length_cons] at hc
      have hroom : size - 1 = chunk.length := by omega
      rw [List.flatten_cons, List.append_assoc, List.cons_append, chunks, chunksAfter, hroom,
        chunksAfter_append, ih fun c hc => h c (List.mem_cons_of_mem _ hc), List.cons_append]

/-- Chunks of a list that is cut between two of them. -/
theorem chunks_append {size : Nat} (hsize : 0 < size) {before : List α}
    (h : before.length % size = 0) (behind : List α) :
    chunks size (before ++ behind) = chunks size before ++ chunks size behind := by
  conv_lhs => rw [← flatten_chunks size before]
  exact chunks_flatten_append hsize (fun c => length_of_mem_chunks hsize h) behind

theorem chunks_flatMap {size : Nat} (hsize : 0 < size) {l : List β} {f : β → List α}
    (h : ∀ b ∈ l, (f b).length = size) : chunks size (l.flatMap f) = l.map f := by
  have hlength : ∀ c ∈ l.map f, c.length = size := by simpa using h
  have hchunks := chunks_flatten_append hsize hlength []
  rwa [List.append_nil, ← List.flatMap_def, show chunks size ([] : List α) = [] from rfl,
    List.append_nil] at hchunks

theorem mem_of_mem_chunks {size : Nat} {l c : List α} (hc : c ∈ chunks size l) {a : α}
    (ha : a ∈ c) : a ∈ l := by
  rw [← flatten_chunks size l]
  exact List.mem_flatten.2 ⟨c, hc, ha⟩

theorem orient_perm (swapped : Bool) (chunk : List Target) :
    (State.orient swapped chunk).Perm chunk := by
  unfold State.orient
  split
  · cases swapped
    · exact .refl _
    · exact .swap _ _ _
  · exact .refl _

theorem productsAfter_ne_nil (joined : Bool) (ts : List Target) :
    ∀ factors ∈ (productsAfter joined ts).2.1, factors ≠ [] := by
  induction ts generalizing joined with
  | nil => exact fun _ h => absurd h List.not_mem_nil
  | cons t rest ih =>
      cases t with
      | pauli basis q inverted =>
          cases joined with
          | true => exact ih false
          | false =>
              intro factors h
              rcases List.mem_cons.1 h with rfl | h
              · exact List.cons_ne_nil _ _
              · exact ih false factors h
      | combiner => exact ih true
      | qubit => exact fun _ h => absurd h List.not_mem_nil
      | record => exact fun _ h => absurd h List.not_mem_nil
      | sweep => exact fun _ h => absurd h List.not_mem_nil

theorem productsAfter_qubit (joined : Bool) (ts : List Target) :
    (∀ f ∈ (productsAfter joined ts).1, ∃ t ∈ ts, t.qubit? = some f.2) ∧
      ∀ factors ∈ (productsAfter joined ts).2.1, ∀ f ∈ factors, ∃ t ∈ ts, t.qubit? = some f.2 := by
  induction ts generalizing joined with
  | nil =>
      exact ⟨fun _ h => absurd h List.not_mem_nil, fun _ h => absurd h List.not_mem_nil⟩
  | cons t rest ih =>
      have hlater {f : Pauli × QubitId} (h : ∃ t ∈ rest, t.qubit? = some f.2) :
          ∃ t' ∈ t :: rest, t'.qubit? = some f.2 :=
        h.imp fun _ ht => ⟨List.mem_cons_of_mem _ ht.1, ht.2⟩
      cases t with
      | pauli basis q inverted =>
          obtain ⟨hfirst, hmore⟩ := ih false
          have hhead : ∀ f ∈ (basis, q) :: (productsAfter false rest).1,
              ∃ t' ∈ Target.pauli basis q inverted :: rest, t'.qubit? = some f.2 := by
            intro f hf
            rcases List.mem_cons.1 hf with rfl | hf
            · exact ⟨_, List.mem_cons_self, rfl⟩
            · exact hlater (hfirst f hf)
          cases joined with
          | true => exact ⟨hhead, fun fs hfs f hf => hlater (hmore fs hfs f hf)⟩
          | false =>
              refine ⟨fun _ h => absurd h List.not_mem_nil, fun fs hfs f hf => ?_⟩
              rcases List.mem_cons.1 hfs with rfl | hfs
              · exact hhead f hf
              · exact hlater (hmore fs hfs f hf)
      | combiner =>
          obtain ⟨hfirst, hmore⟩ := ih true
          exact ⟨fun f hf => hlater (hfirst f hf), fun fs hfs f hf => hlater (hmore fs hfs f hf)⟩
      | qubit | record | sweep =>
          exact ⟨fun _ h => absurd h List.not_mem_nil, fun _ h => absurd h List.not_mem_nil⟩

theorem productsAfter_fst {ts : List Target} (h : ts.head? ≠ some .combiner) :
    (productsAfter false ts).1 = [] := by
  cases ts with
  | nil => rfl
  | cons t rest =>
      cases t with
      | combiner => exact absurd rfl h
      | _ => rfl

/-- The products in front of a cut and those behind it. -/
theorem productsAfter_append {joined : Bool} {before behind : List Target}
    (hjoined : before = [] → joined = false)
    (hlast : before.getLast? ≠ some .combiner) (hhead : behind.head? ≠ some .combiner) :
    productsAfter joined (before ++ behind) =
      match productsAfter joined before with
      | (factors, products, some bad) => (factors, products, some bad)
      | (factors, products, none) =>
          (factors, products ++ (productsAfter false behind).2.1, (productsAfter false behind).2.2) := by
  induction before generalizing joined with
  | nil =>
      rw [hjoined rfl, List.nil_append]
      exact Prod.ext (productsAfter_fst hhead) rfl
  | cons t rest ih =>
      have hrest : rest.getLast? ≠ some .combiner := by
        cases rest with
        | nil => simp
        | cons _ _ => rwa [List.getLast?_cons_cons] at hlast
      cases t with
      | pauli basis q inverted =>
          rw [List.cons_append, productsAfter, productsAfter, ih (fun _ => rfl) hrest]
          rcases productsAfter false rest with ⟨factors, products, _ | bad⟩ <;> cases joined <;> rfl
      | combiner =>
          have hne : rest ≠ [] := by
            rintro rfl
            exact hlast rfl
          rw [List.cons_append, productsAfter, productsAfter, ih (absurd · hne) hrest]
      | qubit | record | sweep => rfl

theorem make_eq_ok {gate : Gate} {tag : String} {args : List Binary32} {targets : List QubitId}
    {line : Nat} {op : Operation} (h : Operation.make gate tag args targets line = .ok op) :
    op.gate = gate ∧ op.tag = tag ∧ op.args = args ∧ op.targets = targets := by
  unfold Operation.make at h
  split at h
  · cases h
    exact ⟨rfl, rfl, rfl, rfl⟩
  · cases h

theorem make_of_toOption {gate : Gate} {tag : String} {args : List Binary32}
    {targets : List QubitId} {line : Nat} {op : Operation}
    (h : (Operation.make gate tag args targets line).toOption = some op) :
    op.gate = gate ∧ op.tag = tag ∧ op.args = args ∧ op.targets = targets := by
  cases hmake : Operation.make gate tag args targets line with
  | error e =>
      rw [hmake] at h
      cases h
  | ok op' =>
      rw [hmake] at h
      cases h
      exact make_eq_ok hmake

theorem qubit?_isSome_of_gateFault? {gate : Gate} {i : Instruction} {t : Target}
    (hfault : gateFault? gate i t = none) (hclassical : t.isClassical = false) :
    t.qubit?.isSome := by
  cases t with
  | qubit q inverted => rfl
  | pauli basis q inverted => rfl
  | record offset => cases hclassical
  | sweep index => cases hclassical
  | combiner => cases hfault

theorem length_filterMap_qubit? {chunk : List Target} (h : ∀ t ∈ chunk, t.qubit?.isSome) :
    (chunk.filterMap Target.qubit?).length = chunk.length := by
  induction chunk with
  | nil => rfl
  | cons t rest ih =>
      obtain ⟨q, hq⟩ := Option.isSome_iff_exists.1 (h t List.mem_cons_self)
      rw [List.filterMap_cons, hq]
      simp only [List.length_cons, ih fun t ht => h t (List.mem_cons_of_mem _ ht)]

/-- The gate that a name stands for in the catalog, by itself or as another name for it. -/
def Context.Calls (ctx : Context) (name : String) (gate : Gate) : Prop :=
  ctx.catalog.gate? name = some gate ∨ ∃ canonical swapped,
    ctx.catalog.alias? name = some (.renamed canonical swapped) ∧
      ctx.catalog.gate? canonical = some gate

/-- What an instruction determines of an operation that it places. -/
structure PlacedBy (ctx : Context) (i : Instruction) (op : Operation) : Prop where
  gate : ctx.Calls i.name op.gate ∨
    i.name ∈ Gate.productFamilies ∧ ∃ bases, bases ≠ [] ∧ op.gate = .product i.name bases
  args : ∃ measures, op.args = keptArgs measures i
  count : op.targets.length = max op.gate.arity 1
  qubits : ∀ q ∈ op.targets, ∃ t ∈ i.targets, t.qubit? = some q

theorem PlacedBy.wellBuilt {ctx : Context} {i : Instruction} {op : Operation}
    (h : PlacedBy ctx i op) (hrange : InRange i) : WellBuilt ctx op where
  known := by
    rcases h.gate with (hgate | ⟨canonical, -, -, hgate⟩) | ⟨hfamily, bases, hbases, hgate⟩
    · exact .inl ⟨i.name, hgate⟩
    · exact .inl ⟨canonical, hgate⟩
    · exact .inr ⟨i.name, hfamily, bases, hbases, hgate⟩
  count := h.count
  named q hq := by
    obtain ⟨t, ht, hqubit⟩ := h.qubits q hq
    exact hrange t ht q hqubit

/-- A mark of feedback on one of the targets of an instruction. -/
def Move.IsFeedback (ctx : Context) (line : Nat) (i : Instruction) (m : Move) : Prop :=
  ∃ err q, ctx.catalog.gate? "ERR" = some err ∧ (∃ t ∈ i.targets, t.qubit? = some q) ∧
    m = .mark (.onQubit err "" [] q line)

theorem productMoves_cases (ctx : Context) {line : Nat} {i : Instruction} {m : Move}
    (hfamily : i.name ∈ Gate.productFamilies) (h : m ∈ productMoves line i) :
    ∃ op, m = .place op ∧ PlacedBy ctx i op := by
  have hnil := productsAfter_ne_nil false i.targets
  have hqubit := (productsAfter_qubit false i.targets).2
  unfold productMoves at h
  rcases hproducts : productsAfter false i.targets with ⟨first, products, _ | bad⟩
  · rw [hproducts] at h hnil hqubit
    obtain ⟨factors, hfactors, hmove⟩ := List.mem_map.1 (mem_untilFault h)
    rw [productMove?, Option.map_eq_some_iff] at hmove
    obtain ⟨op, hmake, rfl⟩ := hmove
    obtain ⟨hgate, -, hargs, htargets⟩ := make_of_toOption hmake
    have hne : factors ≠ [] := hnil factors hfactors
    refine ⟨op, rfl, .inr ⟨hfamily, _, by simpa using hne, hgate⟩, ⟨_, hargs⟩, ?_, fun q hq => ?_⟩
    · have hpos : 0 < factors.length := List.length_pos_iff.2 hne
      rw [hgate, htargets, List.length_map]
      simp only [Gate.product, List.length_map]
      omega
    · rw [htargets] at hq
      obtain ⟨f, hf, rfl⟩ := List.mem_map.1 hq
      exact hqubit factors hfactors f hf
  · rw [hproducts] at h
    exact absurd h List.not_mem_nil

theorem chunkMoves?_cases {ctx : Context} {line : Nat} {i : Instruction} {gate : Gate}
    {chunk : List Target} {ms : List Move} (h : chunkMoves? ctx line i gate chunk = some ms)
    {m : Move} (hm : m ∈ ms) :
    (∃ op, m = .place op ∧ chunk.find? Target.isClassical = none ∧ op.gate = gate ∧
      op.args = keptArgs gate.isMeasurement i ∧ op.targets = chunk.filterMap Target.qubit?) ∨
    ∃ err q, ctx.catalog.gate? "ERR" = some err ∧ (∃ t ∈ chunk, t.qubit? = some q) ∧
      m = .mark (.onQubit err "" [] q line) := by
  unfold chunkMoves? at h
  cases hcontrol : chunk.find? Target.isClassical with
  | some control =>
      simp only [hcontrol] at h
      split at h
      · obtain ⟨q, hqubit, rfl⟩ := Option.map_eq_some_iff.1 h
        obtain ⟨err, herr, rfl⟩ := List.mem_map.1 hm
        exact .inr ⟨err, q, Option.mem_toList.1 herr, List.exists_of_findSome?_eq_some hqubit, rfl⟩
      · cases h
  | none =>
      simp only [hcontrol, Option.map_eq_some_iff] at h
      obtain ⟨op, hmake, rfl⟩ := h
      obtain ⟨hgate, -, hargs, htargets⟩ := make_of_toOption hmake
      exact .inl ⟨op, List.mem_singleton.1 hm, rfl, hgate, hargs, htargets⟩

theorem gateMoves_cases {ctx : Context} {line : Nat} {i : Instruction} {gate : Gate}
    {swapped : Bool} {m : Move} (hcalls : ctx.Calls i.name gate)
    (h : m ∈ gateMoves ctx line i gate swapped) :
    (∃ op, m = .place op ∧ PlacedBy ctx i op) ∨ m.IsFeedback ctx line i := by
  unfold gateMoves at h
  dsimp only at h
  split at h
  · exact absurd h List.not_mem_nil
  · rename_i hgood
    rw [not_or, Option.not_isSome_iff_eq_none, List.findSome?_eq_none_iff, not_not] at hgood
    obtain ⟨hfault, hlength⟩ := hgood
    obtain ⟨ms, hms, hm⟩ := List.mem_flatten.1 h
    obtain ⟨oriented, horiented, hchunk⟩ := List.mem_map.1 (mem_untilFault hms)
    obtain ⟨chunk, hc, rfl⟩ := List.mem_map.1 horiented
    have hfrom (t : Target) (ht : t ∈ State.orient swapped chunk) : t ∈ i.targets :=
      mem_of_mem_chunks hc ((orient_perm swapped chunk).mem_iff.1 ht)
    obtain ⟨op, rfl, hclassical, rfl, hargs, htargets⟩ | ⟨err, q, herr, ⟨t, ht, hq⟩, rfl⟩ :=
      chunkMoves?_cases hchunk hm
    · have hqubits : ∀ t ∈ State.orient swapped chunk, t.qubit?.isSome := fun t ht =>
        qubit?_isSome_of_gateFault? (hfault t (hfrom t ht))
          (by simpa using List.find?_eq_none.1 hclassical t ht)
      refine .inl ⟨op, rfl, .inl hcalls, ⟨_, hargs⟩, ?_, fun q hq => ?_⟩
      · rw [htargets, length_filterMap_qubit? hqubits, (orient_perm swapped chunk).length_eq]
        exact length_of_mem_chunks (by omega) hlength hc
      · rw [htargets] at hq
        obtain ⟨t, ht, hq⟩ := List.mem_filterMap.1 hq
        exact ⟨t, hfrom t ht, hq⟩
    · exact .inr ⟨err, q, herr, ⟨t, hfrom t ht, hq⟩, rfl⟩

theorem namedMoves_cases {ctx : Context} {line : Nat} {i : Instruction} {m : Move}
    (h : m ∈ namedMoves ctx line i) :
    (∃ op, m = .place op ∧ PlacedBy ctx i op) ∨ m.IsFeedback ctx line i := by
  have hlisted {name : String} {swapped : Bool}
      (hcalls : ∀ gate, ctx.catalog.gate? name = some gate → ctx.Calls i.name gate)
      (h : m ∈ ((ctx.catalog.gate? name).map (gateMoves ctx line i · swapped)).getD []) :
      (∃ op, m = .place op ∧ PlacedBy ctx i op) ∨ m.IsFeedback ctx line i := by
    cases hgate : ctx.catalog.gate? name with
    | none =>
        rw [hgate] at h
        exact absurd h List.not_mem_nil
    | some gate =>
        rw [hgate] at h
        exact gateMoves_cases (hcalls gate hgate) h
  unfold namedMoves at h
  split at h
  · exact absurd h List.not_mem_nil
  · rename_i canonical swapped halias
    exact hlisted (fun gate hgate => .inr ⟨canonical, swapped, halias, hgate⟩) h
  · exact hlisted (fun gate hgate => .inl hgate) h

theorem detector_or_observable_of_markerMoves {n line : Nat} {i : Instruction} {m : Move}
    (h : m ∈ markerMoves n line i) :
    ∃ numbers, recordNumbers? n i.targets = some numbers ∧
      ((i.name = detectorName ∧ m = .detector i.tag line numbers) ∨
        ∃ v, observableIndex? i = some v ∧ m = .observable v i.tag line numbers) := by
  unfold markerMoves at h
  split at h
  · exact absurd h List.not_mem_nil
  · rename_i numbers hnumbers
    refine ⟨numbers, hnumbers, ?_⟩
    split at h
    · exact .inl ⟨‹_›, List.mem_singleton.1 h⟩
    · obtain ⟨v, hv, rfl⟩ := List.mem_map.1 h
      exact .inr ⟨v, Option.mem_toList.1 hv, rfl⟩

/-- All that an instruction can do: begin a layer, accept a detector or an observable, place an
operation or mark feedback. -/
theorem instructionMoves_cases {ctx : Context} {n line : Nat} {i : Instruction} {m : Move}
    (h : m ∈ instructionMoves ctx n line i) :
    (i.name = tickName ∧ m = .tick) ∨
    ((i.name = detectorName ∨ i.name = observableName) ∧ m ∈ markerMoves n line i) ∨
    ((i.name ≠ detectorName ∧ i.name ≠ observableName) ∧
      ((∃ op, m = .place op ∧ PlacedBy ctx i op) ∨ m.IsFeedback ctx line i)) := by
  unfold instructionMoves at h
  split at h
  · exact .inl ⟨‹_›, List.mem_singleton.1 h⟩
  split at h
  · exact absurd h List.not_mem_nil
  split at h
  · exact .inr (.inl ⟨‹_›, h⟩)
  rename_i hmarker
  refine .inr (.inr ⟨not_or.1 hmarker, ?_⟩)
  split at h
  · exact .inl (productMoves_cases ctx ‹_› h)
  · exact namedMoves_cases h

theorem placedBy_of_instructionMoves {ctx : Context} {n line : Nat} {i : Instruction}
    {op : Operation} (h : Move.place op ∈ instructionMoves ctx n line i) :
    (i.name ≠ detectorName ∧ i.name ≠ observableName) ∧ PlacedBy ctx i op := by
  obtain ⟨-, hm⟩ | ⟨-, hm⟩ | ⟨hname, ⟨op', hop, hplaced⟩ | ⟨_, _, -, -, hm⟩⟩ :=
    instructionMoves_cases h
  · cases hm
  · obtain ⟨_, -, ⟨-, hm⟩ | ⟨_, -, hm⟩⟩ := detector_or_observable_of_markerMoves hm
    · cases hm
    · cases hm
  · cases hop
    exact ⟨hname, hplaced⟩
  · cases hm

/-- Only instructions move. -/
theorem instruction_of_mem_moves {ctx : Context} {n : Nat} {a : Act} {m : Move}
    (h : m ∈ a.moves ctx n) :
    ∃ line i, a.instruction? = some (line, i) ∧ m ∈ instructionMoves ctx n line i := by
  cases hi : a.instruction? with
  | none =>
      rw [moves_of_none hi] at h
      exact absurd h List.not_mem_nil
  | some entry =>
      rw [moves_of_instruction hi] at h
      exact ⟨entry.1, entry.2, rfl, h⟩

theorem wellBuilt_of_mem_actMoves {ctx : Context} {n : Nat} {a : Act} {op : Operation}
    (h : Move.place op ∈ a.moves ctx n) : WellBuilt ctx op := by
  obtain ⟨line, i, hi, h⟩ := instruction_of_mem_moves h
  exact (placedBy_of_instructionMoves h).2.wellBuilt (inRange_of_instruction? hi)

theorem tick_mem_actMoves {ctx : Context} {n : Nat} {a : Act} (h : Move.tick ∈ a.moves ctx n) :
    ∃ line i, a.instruction? = some (line, i) ∧ i.name = tickName ∧ a.moves ctx n = [.tick] := by
  obtain ⟨line, i, hi, h⟩ := instruction_of_mem_moves h
  have hname : i.name = tickName := by
    obtain ⟨hname, -⟩ | ⟨-, hm⟩ | ⟨-, ⟨_, hm, -⟩ | ⟨_, _, -, -, hm⟩⟩ := instructionMoves_cases h
    · exact hname
    · obtain ⟨_, -, ⟨-, hm⟩ | ⟨_, -, hm⟩⟩ := detector_or_observable_of_markerMoves hm
      · cases hm
      · cases hm
    · cases hm
    · cases hm
  exact ⟨line, i, hi, hname, by rw [moves_of_instruction hi, instructionMoves, if_pos hname]⟩

theorem mem_movesFrom {ctx : Context} {n : Nat} {acts : List Act} {m : Move}
    (h : m ∈ movesFrom ctx n acts) : ∃ a ∈ acts, ∃ k, m ∈ a.moves ctx k := by
  induction acts generalizing n with
  | nil => exact absurd h List.not_mem_nil
  | cons a rest ih =>
      rcases List.mem_append.1 h with h | h
      · exact ⟨a, List.mem_cons_self, n, h⟩
      · obtain ⟨b, hb, k, hk⟩ := ih h
        exact ⟨b, List.mem_cons_of_mem _ hb, k, hk⟩

theorem wellBuilt_of_mem_moves {ctx : Context} {acts : List Act} {op : Operation}
    (h : Move.place op ∈ moves ctx acts) : WellBuilt ctx op := by
  obtain ⟨a, -, k, hk⟩ := mem_movesFrom h
  exact wellBuilt_of_mem_actMoves hk

/-- A move that does not place an operation without targets. -/
def Move.Grounded : Move → Prop
  | .place op => op.targets ≠ []
  | _ => True

theorem grounded_of_mem_actMoves {ctx : Context} {n : Nat} {a : Act} {m : Move}
    (h : m ∈ a.moves ctx n) : m.Grounded := by
  cases m with
  | place op => exact (wellBuilt_of_mem_actMoves h).targets_ne_nil
  | _ => trivial

theorem grounded_of_mem_moves {ctx : Context} {acts : List Act} {m : Move}
    (h : m ∈ moves ctx acts) : m.Grounded := by
  obtain ⟨a, -, k, hk⟩ := mem_movesFrom h
  exact grounded_of_mem_actMoves hk

theorem record_size_move {ctx : Context} {m : Move} (hm : m.Grounded) (t : Tape) :
    (t.move ctx m).record.size = t.record.size + [m].countP Move.measures := by
  cases m with
  | place op =>
      cases htargets : op.targets with
      | nil => exact absurd htargets hm
      | cons q rest =>
          cases hmeasures : op.isMeasurement <;>
            simp [Tape.move, Tape.place, htargets, hmeasures, Move.measures]
  | _ => rfl

theorem record_size_foldl (ctx : Context) {ms : List Move} (hms : ∀ m ∈ ms, m.Grounded)
    (t : Tape) :
    (ms.foldl (Tape.move ctx) t).record.size = t.record.size + ms.countP Move.measures := by
  induction ms generalizing t with
  | nil => rfl
  | cons m rest ih =>
      rw [List.foldl_cons, ih fun m hm => hms m (List.mem_cons_of_mem _ hm),
        record_size_move (hms m List.mem_cons_self), Nat.add_assoc, ← List.countP_append]
      rfl

theorem movesFrom_append (ctx : Context) (n : Nat) (before after : List Act) :
    movesFrom ctx n (before ++ after) = movesFrom ctx n before ++
      movesFrom ctx (n + (movesFrom ctx n before).countP Move.measures) after := by
  induction before generalizing n with
  | nil => rfl
  | cons a rest ih =>
      rw [List.cons_append, movesFrom, movesFrom, ih, List.append_assoc, List.countP_append,
        Nat.add_assoc]

theorem moves_concat (ctx : Context) (acts : List Act) (a : Act) :
    moves ctx (acts ++ [a]) =
      moves ctx acts ++ a.moves ctx ((moves ctx acts).countP Move.measures) := by
  rw [moves, movesFrom_append, Nat.zero_add]
  simp only [movesFrom, List.append_nil]
  rfl

theorem tape_start : ({} : State).tape = {} := by
  simp only [State.tape, Circuit.empty, Schedule.empty, Schedule.map, List.map_toArray,
    List.map_nil]
  rfl

/-- The tape of a run is the one that its moves lead to. -/
theorem tape_stateAfter (ctx : Context) (acts : List Act) :
    (stateAfter ctx acts).tape = Tape.after ctx (moves ctx acts) := by
  induction acts using List.reverseRecOn with
  | nil => exact tape_start
  | append_singleton acts a ih =>
      have hsize : (stateAfter ctx acts).record.size = (moves ctx acts).countP Move.measures := by
        have hgrounded : ∀ m ∈ moves ctx acts, m.Grounded := fun m => grounded_of_mem_moves
        have h := record_size_foldl ctx hgrounded {}
        rw [← Tape.after, ← ih] at h
        simpa [State.tape] using h
      rw [stateAfter_concat, tape_after, hsize, ih, moves_concat, Tape.after, Tape.after,
        List.foldl_append]

end Build

end StimOverlay
