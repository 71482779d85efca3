import StimOverlay.Proofs.Block.UnrolledRepeats
import StimOverlay.Proofs.Directive.WrittenDirectives

/-! Broadcast targets. An instruction applies a gate or a family of products to one chunk of its targets
after another. Wherever its targets are cut between two chunks, instructions for the pieces lead to the
same state. -/

namespace StimOverlay

namespace Build

/-- The gate that a name stands for, with whether its pairs are swapped; an alias goes before a gate. -/
def Context.meant? (ctx : Context) (name : String) : Option (Gate × Bool) :=
  match ctx.catalog.alias? name with
  | some (.renamed canonical swapped) => (ctx.catalog.gate? canonical).map (·, swapped)
  | some .ignored => none
  | none => (ctx.catalog.gate? name).map (·, false)

/-- A name whose instructions apply gates or products, or are skipped like noise. -/
structure Context.AppliesGates (ctx : Context) (name : String) : Prop where
  plain : name ∉ [tickName, coordinatesName, polygonName, detectorName, observableName]
  known : name ∈ Gate.productFamilies ∨ ctx.catalog.alias? name = some .ignored ∨
    (ctx.meant? name).isSome

/-- Targets that are cut between two chunks: no product is cut in two, and a gate has as many targets in
front as it takes for some operations. -/
def Context.CutsBetween (ctx : Context) (name : String) (before behind : List Target) : Prop :=
  if name ∈ Gate.productFamilies then
    before.getLast? ≠ some .combiner ∧ behind.head? ≠ some .combiner
  else ∀ gate swapped, ctx.meant? name = some (gate, swapped) →
    before.length % max gate.arity 1 = 0

/-- Pieces of a target list that is cut between chunks only. -/
def Context.Cuts (ctx : Context) (name : String) : List (List Target) → Prop
  | [] => True
  | [_] => True
  | piece :: next :: rest =>
      ctx.CutsBetween name piece (next :: rest).flatten ∧ ctx.Cuts name (next :: rest)

/-- The names of the standard table whose instructions apply gates. -/
def standardNames : List String :=
  Gate.productFamilies ++ Alias.standard.map (·.1) ++
    (Gate.standard.map (·.name)).filter (· ∉ [detectorName, observableName])

theorem appliesGates_standard : ∀ name ∈ standardNames, Context.standard.AppliesGates name := by
  have hall : ∀ name ∈ standardNames,
      name ∉ [tickName, coordinatesName, polygonName, detectorName, observableName] ∧
        (name ∈ Gate.productFamilies ∨ Context.standard.catalog.alias? name = some .ignored ∨
          (Context.standard.meant? name).isSome) := by
    decide +kernel
  exact fun name hname => ⟨(hall name hname).1, (hall name hname).2⟩

/-- A step gives a result and goes on in state `t`. -/
def Leads (x : Step (α × State)) (t : State) : Prop := ∃ a, x = .ok (a, t)

variable {ctx : Context} {s t : State} {line : Nat} {i : Instruction}
  {ts before behind : List Target}

theorem applyProducts_append (s : State) (line : Nat) (i : Instruction) (l m : List Factors) :
    s.applyProducts line i (l ++ m) =
      s.applyProducts line i l >>= fun u => u.applyProducts line i m := by
  induction l generalizing s with
  | nil => rfl
  | cons factors l ih =>
      rw [List.cons_append, State.applyProducts, State.applyProducts, bind_assoc]
      simp only [ih]

/-- Products are applied whatever the other targets of the instruction are. -/
theorem applyProducts_retarget (s : State) (products : List Factors) :
    s.applyProducts line { i with targets := ts } products = s.applyProducts line i products := by
  induction products generalizing s with
  | nil => rfl
  | cons factors products ih =>
      rw [State.applyProducts, State.applyProducts]
      simp only [ih]
      rfl

theorem leads_buildProducts_iff :
    Leads (s.buildProducts line { i with targets := ts }) t ↔
      (productsAfter false ts).2.2 = none ∧
        s.applyProducts line i (productsAfter false ts).2.1 = .ok t := by
  unfold Leads State.buildProducts
  rcases productsAfter false ts with ⟨factors, products, _ | bad⟩
  · simp [bind_eq_ok_iff, applyProducts_retarget]
  · simp [State.halt]

theorem leads_buildProducts_append (hlast : before.getLast? ≠ some .combiner)
    (hhead : behind.head? ≠ some .combiner) :
    Leads (s.buildProducts line { i with targets := before ++ behind }) t ↔
      ∃ u, Leads (s.buildProducts line { i with targets := before }) u ∧
        Leads (u.buildProducts line { i with targets := behind }) t := by
  simp only [leads_buildProducts_iff, productsAfter_append (fun _ => rfl) hlast hhead]
  rcases productsAfter false before with ⟨factors, products, _ | bad⟩
  · simp only [applyProducts_append, bind_eq_ok_iff, true_and]
    constructor
    · rintro ⟨hbad, u, hu, ht⟩
      exact ⟨u, hu, hbad, ht⟩
    · rintro ⟨u, hu, hbad, ht⟩
      exact ⟨hbad, u, hu, ht⟩
  · simp

theorem leads_applyChunks_cons {gate : Gate} {chunk : List Target} {rest : List (List Target)} :
    Leads (s.applyChunks ctx line i gate (chunk :: rest)) t ↔
      ∃ u, Leads (s.applyChunk ctx line i gate chunk) u ∧
        Leads (u.applyChunks ctx line i gate rest) t := by
  unfold Leads
  rw [State.applyChunks]
  simp only [bind_eq_ok_iff, Prod.exists, Except.ok.injEq, Prod.mk.injEq]
  constructor
  · rintro ⟨_, touched, u, hu, more, t, ht, -, rfl⟩
    exact ⟨u, ⟨touched, hu⟩, more, ht⟩
  · rintro ⟨u, ⟨touched, hu⟩, more, ht⟩
    exact ⟨touched ++ more, touched, u, hu, more, t, ht, rfl, rfl⟩

theorem leads_applyChunks_append {gate : Gate} {l m : List (List Target)} :
    Leads (s.applyChunks ctx line i gate (l ++ m)) t ↔
      ∃ u, Leads (s.applyChunks ctx line i gate l) u ∧
        Leads (u.applyChunks ctx line i gate m) t := by
  induction l generalizing s with
  | nil => simp [Leads, State.applyChunks]
  | cons chunk l ih =>
      rw [List.cons_append, leads_applyChunks_cons]
      simp only [leads_applyChunks_cons, ih]
      constructor
      · rintro ⟨u, hu, v, hv, ht⟩
        exact ⟨v, ⟨u, hu, hv⟩, ht⟩
      · rintro ⟨v, ⟨u, hu, hv⟩, ht⟩
        exact ⟨u, hu, v, hv, ht⟩

/-- Chunks are built whatever the other targets of the instruction are. -/
theorem applyChunks_retarget (s : State) (gate : Gate) (cs : List (List Target)) :
    s.applyChunks ctx line { i with targets := ts } gate cs = s.applyChunks ctx line i gate cs := by
  induction cs generalizing s with
  | nil => rfl
  | cons chunk cs ih =>
      rw [State.applyChunks, State.applyChunks]
      simp only [ih]
      rfl

/-- Whether a target is at fault does not depend on the targets around it. -/
theorem gateFault?_retarget_eq_none (gate : Gate) (i : Instruction) (ts : List Target) (x : Target) :
    gateFault? gate { i with targets := ts } x = none ↔ gateFault? gate i x = none := by
  cases x with
  | qubit q inverted => cases inverted <;> rfl
  | combiner => simp [gateFault?]
  | _ => rfl

theorem leads_buildGate_iff {gate : Gate} {swapped : Bool} :
    Leads (s.buildGate ctx line { i with targets := ts } gate swapped) t ↔
      (∀ x ∈ ts, gateFault? gate i x = none) ∧ ts.length % max gate.arity 1 = 0 ∧
        Leads (s.applyChunks ctx line i gate
          ((chunks (max gate.arity 1) ts).map (State.orient swapped))) t := by
  have hfault : ts.findSome? (gateFault? gate { i with targets := ts }) = none ↔
      ∀ x ∈ ts, gateFault? gate i x = none := by
    simp only [List.findSome?_eq_none_iff, gateFault?_retarget_eq_none]
  unfold Leads State.buildGate
  rw [← hfault]
  split
  · rename_i hsome
    simp [State.halt, hsome]
  · rename_i hnone
    dsimp only
    split_ifs with hlength
    · simp [State.halt, hlength]
    · simp [bind_eq_ok_iff, applyChunks_retarget, hnone, not_not.1 hlength]

theorem leads_buildGate_nil {gate : Gate} {swapped : Bool} :
    Leads (s.buildGate ctx line { i with targets := [] } gate swapped) t ↔ s = t := by
  rw [leads_buildGate_iff]
  simp [Leads, chunks, chunksAfter, State.applyChunks]

theorem leads_buildGate_append {gate : Gate} {swapped : Bool}
    (hcut : before.length % max gate.arity 1 = 0) :
    Leads (s.buildGate ctx line { i with targets := before ++ behind } gate swapped) t ↔
      ∃ u, Leads (s.buildGate ctx line { i with targets := before } gate swapped) u ∧
        Leads (u.buildGate ctx line { i with targets := behind } gate swapped) t := by
  have hlength : (before ++ behind).length % max gate.arity 1 = 0 ↔
      behind.length % max gate.arity 1 = 0 := by
    rw [List.length_append, Nat.add_mod, hcut, Nat.zero_add, Nat.mod_mod]
  simp only [leads_buildGate_iff, hlength, hcut, chunks_append (by omega : 0 < max gate.arity 1) hcut,
    List.map_append, leads_applyChunks_append, List.forall_mem_append, true_and]
  constructor
  · rintro ⟨⟨hbefore, hbehind⟩, hmod, u, hu, ht⟩
    exact ⟨u, ⟨hbefore, hu⟩, hbehind, hmod, ht⟩
  · rintro ⟨u, ⟨hbefore, hu⟩, hbehind, hmod, ht⟩
    exact ⟨⟨hbefore, hbehind⟩, hmod, u, hu, ht⟩

theorem anchor_of_build {source : List Char} {o : Outcome}
    (h : s.build ctx line source i = .ok (o, t)) : t.anchor = s.anchor := by
  have hadding : Adding line s (fun r => Adds line s r.2) (s.build ctx line source i) :=
    adding_build s source
  rw [h] at hadding
  exact hadding.anchor

namespace Context.AppliesGates

variable {source : List Char}

/-- All that an instruction with such a name can be. -/
theorem build_eq (h : ctx.AppliesGates i.name) (s : State) (line : Nat) (source : List Char) :
    s.build ctx line source i =
      if i.name ∈ Gate.productFamilies then s.buildProducts line i
      else match ctx.meant? i.name with
        | some (gate, swapped) => s.buildGate ctx line i gate swapped
        | none => .ok (.other, s) := by
  obtain ⟨htick, hcoordinates, hpolygon, hdetector, hobservable⟩ :
      i.name ≠ tickName ∧ i.name ≠ coordinatesName ∧ i.name ≠ polygonName ∧
        i.name ≠ detectorName ∧ i.name ≠ observableName := by
    simpa using h.plain
  rw [State.build, if_neg htick, if_neg hcoordinates, if_neg hpolygon,
    if_neg (not_or.2 ⟨hdetector, hobservable⟩)]
  split_ifs with hfamily
  · rfl
  · have hknown := h.known.resolve_left hfamily
    unfold State.buildNamed
    unfold Context.meant? at hknown ⊢
    cases halias : ctx.catalog.alias? i.name with
    | none =>
        cases hgate : ctx.catalog.gate? i.name with
        | none => simp [halias, hgate] at hknown
        | some gate => simp [hgate]
    | some a =>
        cases a with
        | ignored => rfl
        | renamed canonical swapped =>
            cases hgate : ctx.catalog.gate? canonical with
            | none => simp [halias, hgate] at hknown
            | some gate => simp [hgate]

theorem leads_nil (h : ctx.AppliesGates i.name) :
    Leads (s.build ctx line source { i with targets := [] }) t ↔ s = t := by
  rw [h.build_eq (i := { i with targets := [] })]
  dsimp only
  split_ifs
  · simp [leads_buildProducts_iff, productsAfter, State.applyProducts]
  · rcases ctx.meant? i.name with _ | ⟨gate, swapped⟩
    · simp [Leads]
    · exact leads_buildGate_nil

theorem leads_append (h : ctx.AppliesGates i.name)
    (hcut : ctx.CutsBetween i.name before behind) :
    Leads (s.build ctx line source { i with targets := before ++ behind }) t ↔
      ∃ u, Leads (s.build ctx line source { i with targets := before }) u ∧
        Leads (u.build ctx line source { i with targets := behind }) t := by
  have hbuild (s : State) (source : List Char) (ts : List Target) :=
    h.build_eq (i := { i with targets := ts }) s line source
  unfold Context.CutsBetween at hcut
  simp only [hbuild]
  split_ifs at hcut ⊢
  · exact leads_buildProducts_append hcut.1 hcut.2
  · rcases hmeant : ctx.meant? i.name with _ | ⟨gate, swapped⟩
    · simp [Leads]
    · exact leads_buildGate_append (hcut gate swapped hmeant)

theorem resolve (h : ctx.AppliesGates i.name) (hfree : s.anchor = .free) {o : Outcome}
    (hbuild : s.build ctx line source i = .ok (o, t)) (number : Nat) :
    t.resolve number o = .ok t := by
  refine resolve_of_free ((anchor_of_build hbuild).trans hfree) ?_ number
  rintro body rfl
  exact h.plain (by simp [(isPolygon_of_build hbuild).1])

/-- Such an instruction resolves nothing, if nothing waits. -/
theorem buildInstruction_eq_ok_iff (h : ctx.AppliesGates i.name) (hfree : s.anchor = .free) :
    s.buildInstruction ctx line source i = .ok t ↔ Leads (s.build ctx line source i) t := by
  rw [State.buildInstruction, hfree]
  dsimp only
  rw [bind_eq_ok_iff]
  constructor
  · rintro ⟨⟨o, u⟩, hbuild, hresolve⟩
    obtain rfl : u = t := Except.ok.inj ((h.resolve hfree hbuild line).symm.trans hresolve)
    exact ⟨o, hbuild⟩
  · rintro ⟨o, hbuild⟩
    exact ⟨(o, t), hbuild, h.resolve hfree hbuild line⟩

end Context.AppliesGates

theorem leads_pieces (hname : ctx.AppliesGates i.name) (hfree : s.anchor = .free)
    {pieces : List (List Char × List Target)} (hcuts : ctx.Cuts i.name (pieces.map (·.2)))
    {source : List Char} :
    Leads (s.build ctx line source { i with targets := (pieces.map (·.2)).flatten }) t ↔
      pieces.foldlM (fun s piece => s.buildInstruction ctx line piece.1
        { i with targets := piece.2 }) s = .ok t := by
  induction pieces generalizing s with
  | nil =>
      rw [List.foldlM_nil]
      exact hname.leads_nil.trans ⟨congrArg _, Except.ok.inj⟩
  | cons piece rest ih =>
      -- Building does not depend on the text that an instruction is read from.
      have hpiece {u : State} : s.buildInstruction ctx line piece.1 { i with targets := piece.2 } =
          .ok u ↔ Leads (s.build ctx line source { i with targets := piece.2 }) u := by
        rw [hname.buildInstruction_eq_ok_iff (i := { i with targets := piece.2 }) hfree,
          hname.build_eq (i := { i with targets := piece.2 }),
          hname.build_eq (i := { i with targets := piece.2 })]
      rw [List.foldlM_cons, bind_eq_ok_iff]
      cases rest with
      | nil => simp [hpiece, pure, Except.pure]
      | cons next rest =>
          obtain ⟨hcut, hcuts⟩ := hcuts
          refine (hname.leads_append hcut).trans (exists_congr fun u => ?_)
          rw [hpiece]
          refine and_congr_right ?_
          rintro ⟨o, hu⟩
          exact ih ((anchor_of_build hu).trans hfree) hcuts

/-- **Broadcasting.** While nothing waits, an instruction that applies gates builds, and leads to a state,
just when the instructions for the pieces of its targets do. -/
theorem buildInstruction_eq_ok_iff_pieces (hname : ctx.AppliesGates i.name)
    (hfree : s.anchor = .free) {pieces : List (List Char × List Target)}
    (hcuts : ctx.Cuts i.name (pieces.map (·.2)))
    (htargets : i.targets = (pieces.map (·.2)).flatten) (line : Nat) (source : List Char) :
    s.buildInstruction ctx line source i = .ok t ↔
      pieces.foldlM (fun s piece => s.buildInstruction ctx line piece.1
        { i with targets := piece.2 }) s = .ok t := by
  rw [hname.buildInstruction_eq_ok_iff hfree, ← leads_pieces hname hfree hcuts, ← htargets]

/-- Pairs that are swapped, the first one classically controlled and the last one on a taken qubit. -/
def swappedPairs : Instruction :=
  ⟨"XCZ", "t", [], [.qubit 0 false, .sweep 2, .qubit 1 false, .qubit 2 false, .qubit 2 false,
    .qubit 3 false]⟩

theorem buildInstruction_swappedPairs :
    ∃ t, State.buildInstruction {} .standard 7 "XCZ[t] 0 sweep[2] 1 2 2 3".toList swappedPairs = .ok t ∧
      [("XCZ[t] 0 sweep[2] 1 2".toList, swappedPairs.targets.take 4), ("XCZ[t]".toList, []),
        ("XCZ[t] 2 3".toList, swappedPairs.targets.drop 4)].foldlM
          (fun (s : State) piece =>
            s.buildInstruction .standard 7 piece.1 { swappedPairs with targets := piece.2 }) {} =
        Except.ok t := by
  have hmeant : Context.standard.meant? "XCZ" = some (⟨"CX", 2, true, .unitary⟩, true) := by
    decide +kernel
  have hcut (before behind : List Target) (heven : before.length % 2 = 0) :
      Context.standard.CutsBetween "XCZ" before behind := by
    rw [Context.CutsBetween, if_neg (by decide)]
    intro gate swapped hgate
    cases hmeant.symm.trans hgate
    exact heven
  have hbuilt : (State.buildInstruction {} .standard 7 "XCZ[t] 0 sweep[2] 1 2 2 3".toList
      swappedPairs).toOption.isSome := by
    decide +kernel
  cases hwhole : State.buildInstruction {} .standard 7 "XCZ[t] 0 sweep[2] 1 2 2 3".toList
      swappedPairs with
  | error e =>
      rw [hwhole] at hbuilt
      cases hbuilt
  | ok t =>
      refine ⟨t, rfl, (buildInstruction_eq_ok_iff_pieces
        (appliesGates_standard "XCZ" (by decide +kernel)) rfl ?_ rfl 7 _).1 hwhole⟩
      exact ⟨hcut _ _ rfl, hcut _ _ rfl, trivial⟩

end Build

end StimOverlay
