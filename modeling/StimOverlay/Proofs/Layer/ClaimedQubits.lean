import StimOverlay.Proofs.Layer.SoundLayers

/-! Claimed qubits. Whatever is asked of a layer, its claims lead from each qubit to the first operation
on it: they are what a scan of the operations would find. Operations on a common qubit are one action that
does not measure, although each of them was compared with the holder of the claim only. -/

namespace StimOverlay

namespace Operation

theorem sameAction_symm {a b : Operation} (h : a.sameAction b) : b.sameAction a := by
  rw [sameAction_iff] at h ⊢
  obtain ⟨hname, htag, hargs, htargets⟩ := h
  exact ⟨hname.symm, htag.symm, sameArgs_symm hargs, htargets.symm⟩

theorem sameAction_trans {a b c : Operation} (h : a.sameAction b) (h' : b.sameAction c) :
    a.sameAction c := by
  rw [sameAction_iff] at h h' ⊢
  obtain ⟨hname, htag, hargs, htargets⟩ := h
  obtain ⟨hname', htag', hargs', htargets'⟩ := h'
  exact ⟨hname.trans hname', htag.trans htag', sameArgs_trans hargs hargs', htargets.trans htargets'⟩

/-- On a common qubit the two operations are one action, and neither measures. -/
def Stacks (a b : Operation) : Prop :=
  ∀ q ∈ a.targets, q ∈ b.targets →
    a.sameAction b ∧ a.isMeasurement = false ∧ b.isMeasurement = false

theorem Stacks.symm {a b : Operation} (h : a.Stacks b) : b.Stacks a := by
  intro q hb ha
  obtain ⟨hsame, hmeasures, hmeasures'⟩ := h q ha hb
  exact ⟨sameAction_symm hsame, hmeasures', hmeasures⟩

/-- Gates of one name have one role. -/
def RolesByName (ops : List Operation) : Prop :=
  ∀ a ∈ ops, ∀ b ∈ ops, a.gate.name = b.gate.name → a.gate.role = b.gate.role

theorem RolesByName.isMeasurement_eq {ops : List Operation} (h : RolesByName ops) {a b : Operation}
    (ha : a ∈ ops) (hb : b ∈ ops) (hsame : a.sameAction b) : a.isMeasurement = b.isMeasurement := by
  have hrole := h a ha b hb (sameAction_iff.1 hsame).1
  simp only [isMeasurement, Gate.isMeasurement, hrole]

end Operation

namespace Layer

open Operation

/-- What can be asked of a layer. -/
inductive Call where
  | put (op : Operation)
  | reindex

def Call.operation? : Call → Option Operation
  | .put op => some op
  | .reindex => none

/-- The layer behind a call. One that refuses an operation stays as it is. -/
def call (l : Layer) : Call → Layer
  | .put op =>
      match l.put op with
      | .ok l' => l'
      | .error _ => l
  | .reindex => l.reindex

/-- The layer behind a list of calls, which starts empty or with one operation. -/
def afterCalls (first : Option Operation) (calls : List Call) : Layer :=
  calls.foldl call (first.elim empty startingWith)

/-- All operations that a history tells of. -/
def offered (first : Option Operation) (calls : List Call) : List Operation :=
  first.toList ++ calls.filterMap Call.operation?

/-- An operation of the layer stands in the way of `op` on qubit `q`. -/
def Busy (l : Layer) (op : Operation) (q : QubitId) : Prop :=
  ∃ a ∈ l.operations.toList, q ∈ a.targets ∧ (op.isMeasurement ∨ ¬a.sameAction op)

/-- A layer with exact claims, whose operations share qubits only where they are stacked. -/
structure Exact (l : Layer) : Prop where
  claimed : ∀ (q : QubitId) (k : Nat), l.claims[q]? = some k ↔
    ∃ a, l.operations[k]? = some a ∧ q ∈ a.targets ∧
      ∀ j < k, ∀ b, l.operations[j]? = some b → q ∉ b.targets
  unclaimed : ∀ q : QubitId, l.claims[q]? = none ↔ ∀ a ∈ l.operations.toList, q ∉ a.targets
  scanned : ∀ q : QubitId,
    l.operationAt? q = l.operations.toList.find? fun a => decide (q ∈ a.targets)
  reindexed : l.reindex = l
  stacked : ∀ (i j : Nat) (a b : Operation) (q : QubitId), i ≠ j → l.operations[i]? = some a →
    l.operations[j]? = some b → q ∈ a.targets → q ∈ b.targets → a.sameAction b
  alone : ∀ (i j : Nat) (a b : Operation) (q : QubitId), i ≠ j → l.operations[i]? = some a →
    l.operations[j]? = some b → a.isMeasurement → q ∈ a.targets → q ∉ b.targets
  acting : ∀ a ∈ l.operations.toList, a.gate.isMarker = false

/-- What becomes of an operation that is put on the layer. -/
structure Answers (l : Layer) (op : Operation) : Prop where
  accepted : ∀ l', l.put op = .ok l' → (op.gate.isMarker ∧ l' = l.mark op) ∨
    op.gate.isMarker = false ∧ (∀ q ∈ op.targets, ¬l.Busy op q) ∧ l' = l.insert op
  refused : ∀ c, l.put op = .error c → op.gate.isMarker = false ∧ c.operation = op ∧
    l.call (.put op) = l ∧ ∃ earlier later, op.targets = earlier ++ c.qubit :: later ∧
      (∀ q ∈ earlier, ¬l.Busy op q) ∧ l.Busy op c.qubit

theorem claimsFrom_concat (claims : Std.TreeMap QubitId Nat) (position : Nat) (ops : List Operation)
    (op : Operation) : claimsFrom claims position (ops ++ [op]) =
      claim (claimsFrom claims position ops) (position + ops.length) op.targets := by
  induction ops generalizing claims position with
  | nil => rfl
  | cons a rest ih =>
      rw [List.cons_append, claimsFrom, ih, claimsFrom, List.length_cons, Nat.add_assoc,
        Nat.add_comm 1]

theorem getElem?_claimsFrom (claims : Std.TreeMap QubitId Nat) (position : Nat)
    (ops : List Operation) (q : QubitId) :
    (claimsFrom claims position ops)[q]? = claims[q]?.or
      ((ops.findIdx? fun op => decide (q ∈ op.targets)).map (· + position)) := by
  induction ops generalizing claims position with
  | nil => simp [claimsFrom]
  | cons op rest ih =>
      rw [claimsFrom, ih, getElem?_claim, Option.or_assoc, List.findIdx?_cons]
      congr 1
      by_cases hq : q ∈ op.targets
      · simp [hq]
      · simp only [hq, if_false, decide_false, Bool.false_eq_true, Option.none_or, Option.map_map]
        congr 1
        funext k
        simp only [Function.comp]
        omega

/-- What every call keeps of a layer, given the operations that are told of. -/
structure Kept (ops : List Operation) (l : Layer) : Prop where
  claims : l.claims = claimsFrom ∅ 0 l.operations.toList
  offered : ∀ a ∈ l.operations.toList, a ∈ ops
  acting : ∀ a ∈ l.operations.toList, a.gate.isMarker = false
  stacked : l.operations.toList.Pairwise Stacks

namespace Kept

variable {ops : List Operation} {l : Layer}

theorem empty (ops : List Operation) : Kept ops Layer.empty where
  claims := rfl
  offered _ ha := absurd ha List.not_mem_nil
  acting _ ha := absurd ha List.not_mem_nil
  stacked := .nil

theorem mark (h : Kept ops l) (op : Operation) : Kept ops (l.mark op) :=
  ⟨h.claims, h.offered, h.acting, h.stacked⟩

theorem insert (h : Kept ops l) {op : Operation} (hop : op ∈ ops) (hacts : op.gate.isMarker = false)
    (hall : ∀ a ∈ l.operations.toList, a.Stacks op) : Kept ops (l.insert op) where
  claims := by
    simp only [Layer.insert, Array.toList_push]
    rw [claimsFrom_concat, Nat.zero_add, Array.length_toList, h.claims]
  offered a ha := by
    rw [Layer.insert, Array.toList_push, List.mem_append, List.mem_singleton] at ha
    rcases ha with ha | rfl
    · exact h.offered a ha
    · exact hop
  acting a ha := by
    rw [Layer.insert, Array.toList_push, List.mem_append, List.mem_singleton] at ha
    rcases ha with ha | rfl
    · exact h.acting a ha
    · exact hacts
  stacked := by
    rw [Layer.insert, Array.toList_push, List.pairwise_append]
    refine ⟨h.stacked, List.pairwise_singleton _ _, fun a ha b hb => ?_⟩
    rw [List.mem_singleton.1 hb]
    exact hall a ha

theorem reindex_eq (h : Kept ops l) : l.reindex = l := by
  rw [reindex, ← h.claims]

theorem getElem?_claims (h : Kept ops l) (q : QubitId) :
    l.claims[q]? = l.operations.toList.findIdx? fun op => decide (q ∈ op.targets) := by
  rw [h.claims, getElem?_claimsFrom, Std.TreeMap.getElem?_emptyc, Option.none_or]
  cases l.operations.toList.findIdx? fun op => decide (q ∈ op.targets) <;> rfl

theorem operationAt?_eq (h : Kept ops l) (q : QubitId) :
    l.operationAt? q = l.operations.toList.find? fun a => decide (q ∈ a.targets) := by
  rw [operationAt?, h.getElem?_claims, List.find?_eq_bind_findIdx?_getElem?]
  simp only [Array.getElem?_toList]

theorem getElem?_operations {l : Layer} {k : Nat} (hk : k < l.operations.toList.length) :
    l.operations[k]? = some l.operations.toList[k] := by
  rw [← Array.getElem?_toList, List.getElem?_eq_getElem hk]

/-- Different operations of the layer are stacked, in whichever order they were placed. -/
theorem stacks_of_shared (h : Kept ops l) {i j : Nat} (hne : i ≠ j) {a b : Operation}
    (ha : l.operations[i]? = some a) (hb : l.operations[j]? = some b) : a.Stacks b := by
  have hordered : ∀ {i j : Nat}, i < j → ∀ {a b : Operation}, l.operations[i]? = some a →
      l.operations[j]? = some b → a.Stacks b := by
    intro i j hlt a b ha hb
    rw [← Array.getElem?_toList] at ha hb
    obtain ⟨hi, rfl⟩ := List.getElem?_eq_some_iff.1 ha
    obtain ⟨hj, rfl⟩ := List.getElem?_eq_some_iff.1 hb
    exact List.pairwise_iff_getElem.1 h.stacked i j hi hj hlt
  rcases Nat.lt_or_gt_of_ne hne with hlt | hlt
  · exact hordered hlt ha hb
  · exact (hordered hlt hb ha).symm

/-- Whoever has the claim on a qubit blocks it for an operation exactly when anything on it does. -/
theorem blocks_iff (h : Kept ops l) (op : Operation) (q : QubitId) :
    l.blocks op q = true ↔ l.Busy op q := by
  unfold blocks Busy
  rw [operationAt?, h.getElem?_claims]
  cases hfind : l.operations.toList.findIdx? (fun a => decide (q ∈ a.targets)) with
  | none =>
      rw [List.findIdx?_eq_none_iff] at hfind
      refine ⟨fun hblocks => absurd hblocks Bool.false_ne_true, ?_⟩
      rintro ⟨a, ha, hq, -⟩
      exact absurd hq (by simpa using hfind a ha)
  | some k =>
      obtain ⟨hk, hheld, -⟩ := List.findIdx?_eq_some_iff_getElem.1 hfind
      have hholder := getElem?_operations hk
      simp only [Option.bind_some, hholder, Bool.or_eq_true, Bool.not_eq_true']
      constructor
      · rintro hblocks
        refine ⟨l.operations.toList[k], List.getElem_mem hk, of_decide_eq_true hheld, ?_⟩
        exact hblocks.imp_right fun hsame => by rw [hsame]; exact Bool.false_ne_true
      · rintro ⟨a, ha, hq, hmeasures | hdiffers⟩
        · exact .inl hmeasures
        · refine .inr (Bool.eq_false_iff.2 fun hsame => hdiffers ?_)
          -- The holder agrees with `op`, and every other operation on the qubit with the holder.
          obtain ⟨j, hj⟩ := List.mem_iff_getElem?.1 ha
          rw [Array.getElem?_toList] at hj
          by_cases hjk : j = k
          · subst hjk
            rw [hholder] at hj
            exact Option.some_inj.1 hj ▸ hsame
          · have hstack := h.stacks_of_shared hjk hj hholder
            exact sameAction_trans (hstack q hq (of_decide_eq_true hheld)).1 hsame

theorem stacks_of_free (h : Kept ops l) (hroles : RolesByName ops) {op : Operation} (hop : op ∈ ops)
    (hfree : ∀ q ∈ op.targets, ¬l.Busy op q) : ∀ a ∈ l.operations.toList, a.Stacks op := by
  intro a ha q hqa hq
  have hnone : ¬op.isMeasurement ∧ a.sameAction op := by
    by_contra hbusy
    refine hfree q hq ⟨a, ha, hqa, ?_⟩
    by_contra hneither
    rw [not_or, not_not] at hneither
    exact hbusy hneither
  have hmeasures : op.isMeasurement = false := Bool.eq_false_iff.2 hnone.1
  refine ⟨hnone.2, ?_, hmeasures⟩
  rw [hroles.isMeasurement_eq (h.offered a ha) hop hnone.2]
  exact hmeasures

/-- The answer to a `put`, from a scan of the layer. -/
theorem answers (h : Kept ops l) (op : Operation) : l.Answers op where
  accepted l' hput := by
    unfold put at hput
    split_ifs at hput with hmarker
    · cases hput
      exact .inl ⟨hmarker, rfl⟩
    · cases hcollision : l.collision? op with
      | some q =>
          rw [hcollision] at hput
          cases hput
      | none =>
          rw [hcollision] at hput
          cases hput
          refine .inr ⟨Bool.eq_false_iff.2 hmarker, fun q hq => ?_, rfl⟩
          rw [← h.blocks_iff]
          exact List.find?_eq_none.1 hcollision q hq
  refused c hput := by
    have hcall : l.call (.put op) = l := by
      rw [call, hput]
    unfold put at hput
    split_ifs at hput with hmarker
    cases hcollision : l.collision? op with
    | none =>
        rw [hcollision] at hput
        cases hput
    | some q =>
        rw [hcollision] at hput
        cases hput
        obtain ⟨hblocks, earlier, later, hsplit, hbefore⟩ := List.find?_eq_some_iff_append.1 hcollision
        refine ⟨Bool.eq_false_iff.2 hmarker, rfl, hcall, earlier, later, hsplit, fun r hr => ?_, ?_⟩
        · rw [← h.blocks_iff]
          simpa using hbefore r hr
        · exact (h.blocks_iff op q).1 hblocks

theorem call (h : Kept ops l) (hroles : RolesByName ops) {c : Call}
    (hc : ∀ op ∈ c.operation?, op ∈ ops) : Kept ops (l.call c) := by
  cases c with
  | reindex =>
      rw [Layer.call, h.reindex_eq]
      exact h
  | put op =>
      rw [Layer.call]
      cases hput : l.put op with
      | error c => exact h
      | ok l' =>
          obtain ⟨-, rfl⟩ | ⟨hacts, hfree, rfl⟩ := (h.answers op).accepted l' hput
          · exact h.mark op
          · have hop := hc op rfl
            exact h.insert hop hacts (h.stacks_of_free hroles hop hfree)

theorem calls (h : Kept ops l) (hroles : RolesByName ops) {cs : List Call}
    (hcs : ∀ c ∈ cs, ∀ op ∈ c.operation?, op ∈ ops) : Kept ops (cs.foldl Layer.call l) := by
  induction cs generalizing l with
  | nil => exact h
  | cons c rest ih =>
      obtain ⟨hc, hrest⟩ := List.forall_mem_cons.1 hcs
      exact ih (h.call hroles hc) hrest

theorem exact_claims (h : Kept ops l) : l.Exact where
  claimed q k := by
    rw [h.getElem?_claims, List.findIdx?_eq_some_iff_getElem]
    constructor
    · rintro ⟨hk, hheld, hbefore⟩
      refine ⟨_, getElem?_operations hk, of_decide_eq_true hheld, fun j hj b hb => ?_⟩
      rw [getElem?_operations (Nat.lt_trans hj hk)] at hb
      cases hb
      simpa using hbefore j hj
    · rintro ⟨a, ha, hheld, hbefore⟩
      rw [← Array.getElem?_toList] at ha
      obtain ⟨hk, rfl⟩ := List.getElem?_eq_some_iff.1 ha
      refine ⟨hk, decide_eq_true hheld, fun j hj => ?_⟩
      have hfree := hbefore j hj _ (getElem?_operations (Nat.lt_trans hj hk))
      simpa using hfree
  unclaimed q := by
    rw [h.getElem?_claims, List.findIdx?_eq_none_iff]
    simp only [decide_eq_false_iff_not]
  scanned := h.operationAt?_eq
  reindexed := h.reindex_eq
  stacked i j a b q hne ha hb hqa hqb := (h.stacks_of_shared hne ha hb q hqa hqb).1
  alone i j a b q hne ha hb hmeasures hqa hqb := by
    rw [(h.stacks_of_shared hne ha hb q hqa hqb).2.1] at hmeasures
    exact absurd hmeasures Bool.false_ne_true
  acting := h.acting

end Kept

/-- The claims of a layer are exact behind every history, and a refused operation is handed back with
the first of its targets that is not free. -/
theorem exact_afterCalls {first : Option Operation} (hfirst : ∀ op ∈ first, op.gate.isMarker = false)
    {calls : List Call} (hroles : RolesByName (offered first calls)) :
    (afterCalls first calls).Exact ∧ ∀ op, (afterCalls first calls).Answers op := by
  have hstart : Kept (offered first calls) (first.elim empty startingWith) := by
    cases first with
    | none => exact .empty _
    | some op =>
        have hop : op ∈ offered (some op) calls := List.mem_append_left _ List.mem_cons_self
        exact (Kept.empty _).insert hop (hfirst op rfl) fun a ha => absurd ha List.not_mem_nil
  have hkept : Kept (offered first calls) (afterCalls first calls) := by
    refine hstart.calls hroles fun c hc op hop => ?_
    exact List.mem_append_right _ (List.mem_filterMap.2 ⟨c, hc, hop⟩)
  exact ⟨hkept.exact_claims, hkept.answers⟩

/-- A gate that is applied twice is stacked, a measurement of the same qubit is refused, and a marker
leaves no claim. -/
theorem exact_stacked_gate :
    let gate : Operation := .onQubit ⟨"H", 1, true, .unitary⟩ "" [] 0 1
    let again : Operation := .onQubit ⟨"H", 1, true, .unitary⟩ "" [] 0 2
    let measurement : Operation := .onQubit ⟨"M", 1, true, .measurement⟩ "" [] 0 3
    let marker : Operation := .onQubit ⟨"MARKX", 1, false, .marker⟩ "" [] 7 4
    let calls : List Call := [.put again, .put measurement, .put marker, .reindex]
    let l := afterCalls (some gate) calls
    (∀ op ∈ some gate, op.gate.isMarker = false) ∧ RolesByName (offered (some gate) calls) ∧
      l.Exact ∧ l.Answers measurement ∧ l.operations = #[gate, again] ∧ l.markers = #[marker] ∧
      l.claims[0]? = some 0 ∧ l.claims[7]? = none ∧ l.collision? measurement = some 0 := by
  intro gate again measurement marker calls l
  have hfirst : ∀ op ∈ some gate, op.gate.isMarker = false := by decide
  have hroles : RolesByName (offered (some gate) calls) := by
    unfold RolesByName
    decide
  obtain ⟨hexact, hanswers⟩ := exact_afterCalls hfirst hroles
  refine ⟨hfirst, hroles, hexact, hanswers measurement, ?_⟩
  decide +kernel

end Layer

end StimOverlay
