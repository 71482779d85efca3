import Mathlib.Data.List.Induction
import Mathlib.Data.List.Sort
import StimOverlay.Circuit.Detectors

/-! Lists gathered by a key, sorted, and rid of repetitions. -/

namespace StimOverlay

theorem pairwise_zipIdx (l : List α) : l.zipIdx.Pairwise fun a b => a.2 < b.2 := by
  have h : (l.zipIdx.map Prod.snd).Pairwise (· < ·) := by
    rw [List.zipIdx_map_snd]
    exact List.pairwise_lt_range'
  exact List.pairwise_map.1 h

/-- Induction on a list whose elements are dropped according to those in front of them. -/
theorem filter_induction {motive : List α → Prop} (p : α → α → Bool) (nil : motive [])
    (cons : ∀ a as, motive (as.filter (p a)) → motive (a :: as)) (l : List α) : motive l := by
  induction hn : l.length using Nat.strong_induction_on generalizing l with
  | _ n ih =>
      cases l with
      | nil => exact nil
      | cons a as =>
          refine cons a as (ih _ ?_ _ rfl)
          rw [← hn, List.length_cons]
          exact Nat.lt_succ_of_le (List.length_filter_le _ _)

theorem eraseDupsBy_sublist (r : α → α → Bool) (l : List α) : (l.eraseDupsBy r).Sublist l := by
  induction l using filter_induction fun a b => r b a = false with
  | nil => exact .refl _
  | cons a as ih =>
      rw [List.eraseDupsBy_cons]
      exact (ih.trans List.filter_sublist).cons_cons a

theorem map_eraseDupsBy [BEq β] (f : α → β) (l : List α) :
    (l.eraseDupsBy fun a b => f a == f b).map f = (l.map f).eraseDups := by
  induction l using filter_induction fun a b => (f b == f a) = false with
  | nil => rfl
  | cons a as ih =>
      rw [List.eraseDupsBy_cons, List.map_cons, List.map_cons, List.eraseDups_cons, ih,
        List.filter_map]
      congr 4
      funext b
      cases h : f b == f a <;> simp [h]

/-- Repetitions are removed in the same places when a change of the elements keeps them apart. -/
theorem eraseDupsBy_map [BEq β] {f : α → β} {g : α → α} {l : List α}
    (h : ∀ a ∈ l, ∀ b ∈ l, (f (g a) == f (g b)) = (f a == f b)) :
    (l.map g).eraseDupsBy (fun a b => f a == f b) =
      (l.eraseDupsBy fun a b => f a == f b).map g := by
  induction l using filter_induction fun a b => (f b == f a) = false with
  | nil => rfl
  | cons a as ih =>
      have hsame : as.filter ((fun b => decide ((f b == f (g a)) = false)) ∘ g) =
          as.filter fun b => decide ((f b == f a) = false) :=
        List.filter_congr fun b hb => by
          rw [Function.comp_apply, h b (List.mem_cons_of_mem _ hb) a List.mem_cons_self]
      have hrest := ih fun b hb c hc => h b (List.mem_cons_of_mem _ (List.mem_of_mem_filter hb)) c
        (List.mem_cons_of_mem _ (List.mem_of_mem_filter hc))
      rw [List.map_cons, List.eraseDupsBy_cons, List.eraseDupsBy_cons, List.map_cons,
        List.filter_map, hsame, hrest]

theorem nodup_eraseDups [BEq α] [LawfulBEq α] (l : List α) : l.eraseDups.Nodup := by
  induction l using filter_induction fun a b : α => !b == a with
  | nil => exact .nil
  | cons a as ih =>
      rw [List.eraseDups_cons, List.nodup_cons, List.mem_eraseDups, List.mem_filter]
      exact ⟨by simp, ih⟩

theorem eraseDups_of_nodup [BEq α] [LawfulBEq α] {l : List α} (h : l.Nodup) : l.eraseDups = l := by
  induction l with
  | nil => rfl
  | cons a as ih =>
      obtain ⟨ha, has⟩ := List.nodup_cons.1 h
      have hall : (as.filter fun b => !b == a) = as := by
        rw [List.filter_eq_self]
        intro b hb
        have hne : b ≠ a := fun heq => ha (heq ▸ hb)
        simpa using hne
      rw [List.eraseDups_cons, hall, ih has]

/-- The elements in front that satisfy a property are all that do, if it holds of everything before
an element that has it. -/
theorem takeWhile_eq_filter {P : α → Bool} {xs : List α}
    (h : xs.Pairwise fun a b => P b → P a) :
    xs.takeWhile P = xs.filter P ∧ xs.drop (xs.takeWhile P).length = xs.filter (!P ·) := by
  induction xs with
  | nil => exact ⟨rfl, rfl⟩
  | cons x rest ih =>
      obtain ⟨hx, hrest⟩ := List.pairwise_cons.1 h
      by_cases hP : P x
      · obtain ⟨htake, hdrop⟩ := ih hrest
        simp [hP, htake, ← hdrop]
      · have hnone : ∀ y ∈ rest, P y = false := fun y hy => by simpa using mt (hx y hy) hP
        have hall : rest.filter (!P ·) = rest :=
          List.filter_eq_self.2 fun y hy => by rw [hnone y hy]; rfl
        simpa [hP, hall] using hnone

/-- Taking the elements key by key only changes their order. -/
theorem flatMap_filter_perm [BEq κ] [LawfulBEq κ] (f : α → κ) {ks : List κ} (hks : ks.Nodup)
    {xs : List α} (hxs : ∀ x ∈ xs, f x ∈ ks) :
    (ks.flatMap fun k => xs.filter (f · == k)).Perm xs := by
  induction ks generalizing xs with
  | nil =>
      cases xs with
      | nil => exact .refl _
      | cons x xs => exact absurd (hxs x List.mem_cons_self) List.not_mem_nil
  | cons k rest ih =>
      obtain ⟨hk, hrest⟩ := List.nodup_cons.1 hks
      have hothers : (rest.flatMap fun k' => xs.filter (f · == k')) =
          rest.flatMap fun k' => (xs.filter fun x => !(f x == k)).filter (f · == k') := by
        refine List.flatMap_congr fun k' hk' => ?_
        rw [List.filter_filter]
        refine List.filter_congr fun x _ => ?_
        have hne : k' ≠ k := fun heq => hk (heq ▸ hk')
        by_cases hx : f x = k' <;> simp [hx, hne]
      rw [List.flatMap_cons, hothers]
      have hothersMem : ∀ x ∈ xs.filter (fun x => !(f x == k)), f x ∈ rest := by
        intro x hx
        obtain ⟨hmem, hne⟩ := List.mem_filter.1 hx
        exact (List.mem_cons.1 (hxs x hmem)).resolve_left (by simpa using hne)
      have hperm := ih hrest hothersMem
      exact (hperm.append_left _).trans (List.filter_append_perm _ _)

/-- Lists that ascend strictly by their keys are equal if they have the same elements. -/
theorem eq_of_ascending {l m : List (Nat × α)} (hl : l.Pairwise fun a b => a.1 < b.1)
    (hm : m.Pairwise fun a b => a.1 < b.1) (h : ∀ e, e ∈ l ↔ e ∈ m) : l = m := by
  have hnodup {l : List (Nat × α)} (hl : l.Pairwise fun a b => a.1 < b.1) : l.Nodup :=
    hl.imp fun hab heq => absurd hab (by rw [heq]; exact Nat.lt_irrefl _)
  have hperm : l.Perm m := (List.perm_ext_iff_of_nodup (hnodup hl) (hnodup hm)).2 h
  exact hperm.eq_of_pairwise (fun a b _ _ hab hba => absurd hab (Nat.lt_asymm hba)) hl hm

namespace Circuit

theorem descending_pairwise (os : List Int) : (descending os).Pairwise (· > ·) := by
  have hsorted : (os.mergeSort fun a b => decide (b ≤ a)).Pairwise fun a b => b ≤ a := by
    refine (List.pairwise_mergeSort ?_ ?_ os).imp fun h => of_decide_eq_true h
    · intro a b c hab hbc
      exact decide_eq_true ((of_decide_eq_true hbc).trans (of_decide_eq_true hab))
    · intro a b
      rcases Int.le_total a b with h | h <;> simp [h]
  have hdistinct := nodup_eraseDups (os.mergeSort fun a b => decide (b ≤ a))
  have hstill := hsorted.sublist (eraseDupsBy_sublist (· == ·) _)
  exact (hstill.and hdistinct).imp fun h => lt_of_le_of_ne h.1 (Ne.symm h.2)

@[simp] theorem mem_descending {os : List Int} {o : Int} : o ∈ descending os ↔ o ∈ os := by
  rw [descending, List.mem_eraseDups, List.mem_mergeSort]

/-- A list of offsets that descends strictly is determined by its members. -/
theorem eq_of_descending {os os' : List Int} (h : os.Pairwise (· > ·))
    (h' : os'.Pairwise (· > ·)) (hmem : ∀ o, o ∈ os ↔ o ∈ os') : os = os' := by
  have hnodup {os : List Int} (h : os.Pairwise (· > ·)) : os.Nodup :=
    h.imp fun hab heq => absurd hab (by rw [heq]; exact Int.lt_irrefl _)
  have hperm : os.Perm os' := (List.perm_ext_iff_of_nodup (hnodup h) (hnodup h')).2 hmem
  exact hperm.eq_of_pairwise (fun a b _ _ hab hba => absurd hab (Int.not_lt.2 (Int.le_of_lt hba)))
    h h'

/-- The measurements that the references to a slot name. -/
def gathered (refs : List Reference) (slot : Nat) : List Measured :=
  (refs.filter (·.slot == slot)).flatMap (·.measured.toList)

theorem getElem?_slots (refs : List Reference) (slot : Nat) :
    (refs.foldl (fun (slots : Std.TreeMap Nat (List Measured)) r =>
      slots.insert r.slot (slots.getD r.slot [] ++ r.measured.toList)) ∅)[slot]? =
      if ∃ r ∈ refs, r.slot = slot then some (gathered refs slot) else none := by
  induction refs using List.reverseRecOn with
  | nil => simp
  | append_singleton refs r ih =>
      rw [List.foldl_append, List.foldl_cons, List.foldl_nil, Std.TreeMap.getElem?_insert]
      by_cases hslot : r.slot = slot
      · subst hslot
        rw [if_pos Std.ReflCmp.compare_self,
          if_pos ⟨r, List.mem_append_right _ List.mem_cons_self, rfl⟩,
          Std.TreeMap.getD_eq_getD_getElem?, ih]
        have hlast : gathered (refs ++ [r]) r.slot =
            gathered refs r.slot ++ r.measured.toList := by
          simp [gathered]
        rw [hlast]
        split
        · rfl
        · rename_i hnone
          have hempty : gathered refs r.slot = [] := by
            have hfilter : refs.filter (·.slot == r.slot) = [] := by
              rw [List.filter_eq_nil_iff]
              intro r' hr' heq
              exact hnone ⟨r', hr', by simpa using heq⟩
            rw [gathered, hfilter, List.flatMap_nil]
          rw [hempty]
          rfl
      · have hsame : gathered (refs ++ [r]) slot = gathered refs slot := by
          simp [gathered, hslot]
        have hiff : (∃ r' ∈ refs ++ [r], r'.slot = slot) ↔ ∃ r' ∈ refs, r'.slot = slot := by
          simp [hslot]
        rw [if_neg fun h => hslot (Std.LawfulEqCmp.eq_of_compare h), ih, hsame]
        simp only [hiff]

theorem mem_bySlot {refs : List Reference} {e : Nat × List Measured} :
    e ∈ bySlot refs ↔ (∃ r ∈ refs, r.slot = e.1) ∧ e.2 = gathered refs e.1 := by
  obtain ⟨slot, found⟩ := e
  rw [bySlot, Std.TreeMap.mem_toList_iff_getElem?_eq_some, getElem?_slots]
  split
  · rename_i h
    rw [Option.some_inj]
    exact ⟨fun heq => ⟨h, heq.symm⟩, fun heq => heq.2.symm⟩
  · rename_i h
    exact ⟨fun heq => absurd heq (by simp), fun heq => absurd heq.1 h⟩

theorem pairwise_bySlot (refs : List Reference) : (bySlot refs).Pairwise fun a b => a.1 < b.1 :=
  Std.TreeMap.ordered_keys_toList.imp fun h => Nat.compare_eq_lt.1 h

/-- The slots are determined by what is in them. -/
theorem bySlot_eq {refs : List Reference} {l : List (Nat × List Measured)}
    (hl : l.Pairwise fun a b => a.1 < b.1)
    (h : ∀ e, e ∈ l ↔ (∃ r ∈ refs, r.slot = e.1) ∧ e.2 = gathered refs e.1) : bySlot refs = l :=
  eq_of_ascending (pairwise_bySlot refs) hl fun e => by rw [mem_bySlot, h]

theorem slot_le_maxSlot {name : String} {layers : List (Layer × Std.TreeMap QubitId Measured)}
    {r : Reference} (h : r ∈ references name layers) : r.slot ≤ maxSlot := by
  have hnearest (x : Numeric.Binary32) : x.nearestNat maxSlot ≤ maxSlot := by
    cases x with
    | nan negative => exact Nat.zero_le _
    | infinite negative =>
        cases negative with
        | false => exact Nat.le_refl _
        | true => exact Nat.zero_le _
    | finite negative m e h => exact Nat.min_le_left _ _
  obtain ⟨entry, -, h⟩ := List.mem_flatMap.1 h
  obtain ⟨op, -, rfl⟩ := List.mem_map.1 h
  cases op.args.head? with
  | none => exact Nat.zero_le _
  | some x => exact hnearest x

theorem length_bySlot_le {refs : List Reference} {n : Nat} (h : ∀ r ∈ refs, r.slot < n) :
    (bySlot refs).length ≤ n := by
  have hnodup : ((bySlot refs).map (·.1)).Nodup :=
    List.pairwise_map.2 ((pairwise_bySlot refs).imp Nat.ne_of_lt)
  have hsubset : (bySlot refs).map (·.1) ⊆ List.range n := by
    intro slot hslot
    obtain ⟨e, he, rfl⟩ := List.mem_map.1 hslot
    obtain ⟨⟨r, hr, heq⟩, -⟩ := mem_bySlot.1 he
    exact List.mem_range.2 (heq ▸ h r hr)
  have hlength := (List.subperm_of_subset hnodup hsubset).length_le
  rwa [List.length_map, List.length_range] at hlength

/-- There are no more detectors than slots. -/
theorem length_detectors_le (c : Circuit) (order : RecordOrder) :
    (c.detectors order).detectors.length ≤ maxSlot + 1 := by
  unfold detectors distinctDetectors
  dsimp only
  rw [List.length_mergeSort]
  refine (eraseDupsBy_sublist _ _).length_le.trans ((List.length_filterMap_le _ _).trans ?_)
  exact length_bySlot_le fun r hr => Nat.lt_succ_of_le (slot_le_maxSlot hr)

theorem observable_lt_indexModulus {c : Circuit} {order : RecordOrder} {e : Nat × List Int}
    (he : e ∈ (c.detectors order).observables) : e.1 < indexModulus := by
  obtain ⟨entry, hentry, rfl⟩ := List.mem_map.1 he
  obtain ⟨⟨r, hr, heq⟩, -⟩ := mem_bySlot.1 hentry
  obtain ⟨r, -, rfl⟩ := List.mem_map.1 hr
  rw [← heq]
  exact Nat.mod_lt _ (by decide)

end Circuit

end StimOverlay
