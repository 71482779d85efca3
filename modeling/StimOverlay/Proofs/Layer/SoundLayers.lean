import Mathlib.Data.List.Pairwise
import StimOverlay.Proofs.Instruction.GateNames

/-! Layers are sound: the claims of a layer point to the first operation on each qubit, and operations
on a common qubit are one and the same unitary or reset. So an operation is refused exactly when the
layer holds one that it is not compatible with, whichever of those has the claim. -/

namespace StimOverlay

open Numeric

namespace Numeric.Binary

variable {f : Format}

theorem same_iff {x y : Binary f} :
    x.same y ↔ (x.isFinite ∧ y.isFinite ∧ x.toRat = y.toRat) ∨
      ∃ negative, x = .infinite negative ∧ y = .infinite negative := by
  unfold same
  cases x with
  | nan s => simp [compare?, isFinite]
  | infinite s =>
      cases y with
      | nan t => simp [compare?, isFinite]
      | infinite t => cases s <;> cases t <;> simp [compare?, isFinite]
      | finite t n d h => cases s <;> simp [compare?, isFinite]
  | finite s m e h =>
      cases y with
      | nan t => simp [compare?, isFinite]
      | infinite t => cases t <;> simp [compare?, isFinite]
      | finite t n d h' =>
          simp only [compare?, isFinite, true_and, reduceCtorEq, false_and, exists_false, or_false,
            beq_iff_eq, Option.some_inj]
          split
          · rename_i hlt
            exact ⟨fun h => absurd h (by decide), fun h => absurd hlt (h ▸ Rat.lt_irrefl)⟩
          · split
            · exact ⟨fun _ => ‹_›, fun _ => rfl⟩
            · exact ⟨fun h => absurd h (by decide), fun h => absurd h ‹_›⟩

theorem same_symm {x y : Binary f} (h : x.same y) : y.same x := by
  rw [same_iff] at h ⊢
  rcases h with ⟨hx, hy, hxy⟩ | ⟨s, hx, hy⟩
  · exact .inl ⟨hy, hx, hxy.symm⟩
  · exact .inr ⟨s, hy, hx⟩

theorem same_trans {x y z : Binary f} (h : x.same y) (h' : y.same z) : x.same z := by
  rw [same_iff] at h h' ⊢
  rcases h with ⟨hx, hy, hxy⟩ | ⟨s, rfl, rfl⟩
  · rcases h' with ⟨-, hz, hyz⟩ | ⟨s, rfl, -⟩
    · exact .inl ⟨hx, hz, hxy.trans hyz⟩
    · cases hy
  · rcases h' with ⟨hy, -, -⟩ | ⟨t, ht, rfl⟩
    · cases hy
    · exact .inr ⟨s, rfl, ht ▸ rfl⟩

end Numeric.Binary

namespace Operation

theorem sameArgs_symm {as bs : List Binary32} (h : sameArgs as bs) : sameArgs bs as := by
  induction as generalizing bs with
  | nil =>
      cases bs with
      | nil => rfl
      | cons b bs => cases h
  | cons a as ih =>
      cases bs with
      | nil => cases h
      | cons b bs =>
          simp only [sameArgs, Bool.and_eq_true] at h ⊢
          exact ⟨Binary.same_symm h.1, ih h.2⟩

theorem sameArgs_trans {as bs cs : List Binary32} (h : sameArgs as bs) (h' : sameArgs bs cs) :
    sameArgs as cs := by
  induction as generalizing bs cs with
  | nil =>
      cases bs with
      | nil => exact h'
      | cons b bs => cases h
  | cons a as ih =>
      cases bs with
      | nil => cases h
      | cons b bs =>
          cases cs with
          | nil => cases h'
          | cons c cs =>
              simp only [sameArgs, Bool.and_eq_true] at h h' ⊢
              exact ⟨Binary.same_trans h.1 h'.1, ih h.2 h'.2⟩

/-- Operations that can stand in one layer: on a common qubit they have the same gate, tag, arguments
and targets, and do not measure. -/
def Compatible (a b : Operation) : Prop :=
  (∃ q, q ∈ a.targets ∧ q ∈ b.targets) →
    a.gate = b.gate ∧ a.tag = b.tag ∧ sameArgs a.args b.args ∧ a.targets = b.targets ∧
      a.isMeasurement = false

theorem Compatible.symm {a b : Operation} (h : a.Compatible b) : b.Compatible a := by
  rintro ⟨q, hb, ha⟩
  obtain ⟨hgate, htag, hargs, htargets, hmeasures⟩ := h ⟨q, ha, hb⟩
  refine ⟨hgate.symm, htag.symm, sameArgs_symm hargs, htargets.symm, ?_⟩
  rw [isMeasurement, ← hgate]
  exact hmeasures

instance : Std.Symm Compatible := ⟨fun _ _ => Compatible.symm⟩

/-- What is compatible with the first operation on a qubit is compatible with the later ones. -/
theorem Compatible.of_common {a b c : Operation} {q : QubitId} (hab : a.Compatible b)
    (hac : a.Compatible c) (ha : q ∈ a.targets) (hb : q ∈ b.targets) (hc : q ∈ c.targets) :
    b.Compatible c := by
  obtain ⟨hgate, htag, hargs, htargets, hmeasures⟩ := hab ⟨q, ha, hb⟩
  obtain ⟨hgate', htag', hargs', htargets', -⟩ := hac ⟨q, ha, hc⟩
  refine fun _ => ⟨hgate.symm.trans hgate', htag.symm.trans htag',
    sameArgs_trans (sameArgs_symm hargs) hargs', htargets.symm.trans htargets', ?_⟩
  rw [isMeasurement, ← hgate]
  exact hmeasures

theorem sameAction_iff {a b : Operation} :
    a.sameAction b ↔ a.gate.name = b.gate.name ∧ a.tag = b.tag ∧ sameArgs a.args b.args ∧
      a.targets = b.targets := by
  simp only [sameAction, Bool.and_eq_true, beq_iff_eq, and_assoc]

end Operation

namespace Layer

open Operation

/-- An operation that a layer may hold. -/
structure Placeable (op : Operation) : Prop extends Build.WellBuilt .standard op where
  acting : op.gate.isMarker = false

structure Sound (l : Layer) : Prop where
  placeable : ∀ op ∈ l.operations.toList, Placeable op
  claims : ∀ q, l.claims[q]? = l.operations.toList.findIdx? (fun op => decide (q ∈ op.targets))
  compatible : l.operations.toList.Pairwise Compatible

theorem getElem?_claim (claims : Std.TreeMap QubitId Nat) (position : Nat)
    (targets : List QubitId) (q : QubitId) :
    (claim claims position targets)[q]? =
      claims[q]?.or (if q ∈ targets then some position else none) := by
  induction targets generalizing claims with
  | nil => simp [claim]
  | cons t rest ih =>
      rw [claim, List.foldl_cons, ← claim, ih, Std.TreeMap.getElem?_insertIfNew]
      by_cases heq : t = q
      · subst heq
        cases hclaimed : claims[t]? with
        | none =>
            have hmem : t ∉ claims := by
              rw [← Std.TreeMap.isSome_getElem?_iff_mem, hclaimed]
              exact Bool.false_ne_true
            simp [hmem]
        | some k =>
            have hmem : t ∈ claims := by
              rw [← Std.TreeMap.isSome_getElem?_iff_mem, hclaimed]
              rfl
            simp [hmem]
      · have hcompare : compare t q ≠ .eq := fun h => heq (Std.LawfulEqCmp.eq_of_compare h)
        simp [hcompare, Ne.symm heq]

theorem operationAt?_cases {l : Layer} (h : l.Sound) (q : QubitId) :
    (l.operationAt? q = none ∧ ∀ a ∈ l.operations.toList, q ∉ a.targets) ∨
      ∃ holder, l.operationAt? q = some holder ∧ holder ∈ l.operations.toList ∧
        q ∈ holder.targets := by
  rw [operationAt?, h.claims]
  cases hfind : l.operations.toList.findIdx? (fun op => decide (q ∈ op.targets)) with
  | none =>
      rw [List.findIdx?_eq_none_iff] at hfind
      exact .inl ⟨rfl, fun a ha => by simpa using hfind a ha⟩
  | some k =>
      obtain ⟨hk, hheld, -⟩ := List.findIdx?_eq_some_iff_getElem.1 hfind
      refine .inr ⟨l.operations.toList[k], ?_, List.getElem_mem hk, of_decide_eq_true hheld⟩
      rw [Option.bind_some, ← Array.getElem?_toList, List.getElem?_eq_getElem hk]

theorem blocks_eq_false_iff {l : Layer} (h : l.Sound) {op : Operation} (hop : Placeable op)
    {q : QubitId} (hq : q ∈ op.targets) :
    l.blocks op q = false ↔ ∀ a ∈ l.operations.toList, q ∈ a.targets → a.Compatible op := by
  unfold blocks
  rcases operationAt?_cases h q with ⟨hnone, hfree⟩ | ⟨holder, hsome, hmem, hheld⟩
  · rw [hnone]
    exact ⟨fun _ a ha hqa => absurd hqa (hfree a ha), fun _ => rfl⟩
  rw [hsome]
  simp only [Bool.or_eq_false_iff, Bool.not_eq_false']
  constructor
  · rintro ⟨hmeasures, hsame⟩ a ha hqa
    obtain ⟨hname, htag, hargs, htargets⟩ := sameAction_iff.1 hsame
    have hgate : holder.gate = op.gate :=
      (h.placeable holder hmem).known.eq_of_name_eq hop.known hname
    have hholder : holder.Compatible op := by
      refine fun _ => ⟨hgate, htag, hargs, htargets, ?_⟩
      rw [isMeasurement, hgate]
      exact hmeasures
    by_cases heq : holder = a
    · exact heq ▸ hholder
    · have hpair := h.compatible.forall hmem ha heq
      exact hpair.of_common hholder hheld hqa hq
  · intro hall
    obtain ⟨hgate, htag, hargs, htargets, hmeasures⟩ := hall holder hmem hheld ⟨q, hheld, hq⟩
    refine ⟨?_, sameAction_iff.2 ⟨hgate ▸ rfl, htag, hargs, htargets⟩⟩
    rw [isMeasurement, ← hgate]
    exact hmeasures

/-- An operation is accepted exactly when it is compatible with the whole layer. -/
theorem collision?_eq_none_iff {l : Layer} (h : l.Sound) {op : Operation} (hop : Placeable op) :
    l.collision? op = none ↔ ∀ a ∈ l.operations.toList, a.Compatible op := by
  unfold collision?
  rw [List.find?_eq_none]
  constructor
  · rintro hfree a ha ⟨q, hqa, hq⟩
    have hblocks : l.blocks op q = false := by simpa using hfree q hq
    exact (blocks_eq_false_iff h hop hq).1 hblocks a ha hqa ⟨q, hqa, hq⟩
  · intro hall q hq
    rw [(blocks_eq_false_iff h hop hq).2 fun a ha _ => hall a ha]
    exact Bool.false_ne_true

theorem sound_empty : Sound empty where
  placeable op hop := absurd hop List.not_mem_nil
  claims q := by
    simp only [empty, List.findIdx?_nil]
    exact Std.TreeMap.getElem?_emptyc
  compatible := .nil

theorem Sound.mark {l : Layer} (h : l.Sound) (op : Operation) : (l.mark op).Sound :=
  ⟨h.placeable, h.claims, h.compatible⟩

theorem Sound.insert {l : Layer} (h : l.Sound) {op : Operation} (hop : Placeable op)
    (hall : ∀ a ∈ l.operations.toList, a.Compatible op) : (l.insert op).Sound where
  placeable a ha := by
    rw [Layer.insert, Array.toList_push, List.mem_append, List.mem_singleton] at ha
    rcases ha with ha | rfl
    · exact h.placeable a ha
    · exact hop
  claims q := by
    simp only [Layer.insert, Array.toList_push]
    rw [getElem?_claim, h.claims, List.findIdx?_append]
    congr 1
    by_cases hq : q ∈ op.targets <;> simp [hq]
  compatible := by
    rw [Layer.insert, Array.toList_push, List.pairwise_append]
    refine ⟨h.compatible, List.pairwise_singleton _ _, fun a ha b hb => ?_⟩
    rw [List.mem_singleton.1 hb]
    exact hall a ha

theorem sound_startingWith {op : Operation} (hop : Placeable op) : (startingWith op).Sound :=
  sound_empty.insert hop fun _ ha => absurd ha List.not_mem_nil

end Layer

end StimOverlay
