import Mathlib.Data.List.Basic
import StimOverlay.Build.Directive

/-! Assigned values. Whatever a directive assigns to a key stands in its line, and the height of a sheet
is kept within its range. -/

namespace StimOverlay

open Numeric

namespace Text

theorem trim_subset (s : List Char) : trim s ⊆ s := by
  have hstart : trimStart s ⊆ s := (List.dropWhile_sublist _).subset
  refine List.Subset.trans (fun c hc => ?_) hstart
  exact List.mem_reverse.1 ((List.dropWhile_sublist _).subset (List.mem_reverse.1 hc))

theorem splitOnce?_subset {p : Char → Bool} {s before after : List Char}
    (h : splitOnce? p s = some (before, after)) : before ⊆ s ∧ after ⊆ s := by
  rw [splitOnce?] at h
  split at h
  · cases h
  · rename_i c rest hdrop
    cases h
    refine ⟨(List.takeWhile_sublist _).subset, List.Subset.trans (List.subset_cons_self c after) ?_⟩
    rw [← hdrop]
    exact (List.dropWhile_sublist _).subset

end Text

namespace Directive

theorem readValue_subset (s : List Char) : (readValue s).1 ⊆ s := by
  unfold readValue
  split
  · rename_i rest
    split
    · rename_i value after hsplit
      exact List.subset_cons_of_subset _ (Text.splitOnce?_subset hsplit).1
    · exact List.subset_cons_self _ _
  · rename_i rest
    have hsplit := Text.splitAfter_append (· == ')') ('(' :: rest)
    conv_rhs => rw [← hsplit]
    exact List.subset_append_left _ _
  · exact (List.takeWhile_sublist _).subset

/-- A value that is assigned in a text is read off a part of it. -/
theorem exists_readValue_of_readItem {c : Char} {rest key value : List Char}
    (h : (readItem c rest).1 = .assignment key value) : ∃ s, s ⊆ rest ∧ value = (readValue s).1 := by
  unfold readItem at h
  dsimp only at h
  split at h
  · rename_i more hafter
    cases h
    refine ⟨_, List.Subset.trans (List.drop_subset _ _) ?_, rfl⟩
    refine List.Subset.trans (List.subset_cons_self '=' more) ?_
    rw [← hafter]
    exact List.Subset.trans (List.drop_subset _ _) (List.drop_subset _ _)
  · cases h

theorem exists_readValue {skip : Nat} {s key value : List Char}
    (h : .assignment key value ∈ itemsAfter skip s) : ∃ t, t ⊆ s ∧ value = (readValue t).1 := by
  have hcons {c : Char} {rest : List Char} (h : ∃ t, t ⊆ rest ∧ value = (readValue t).1) :
      ∃ t, t ⊆ c :: rest ∧ value = (readValue t).1 :=
    h.imp fun _ ht => ⟨List.subset_cons_of_subset _ ht.1, ht.2⟩
  induction s generalizing skip with
  | nil => cases skip <;> cases h
  | cons c rest ih =>
      refine hcons ?_
      cases skip with
      | succ skip => exact ih h
      | zero =>
          rw [itemsAfter] at h
          split_ifs at h
          · exact ih h
          · rcases List.mem_cons.1 h with h | h
            · exact exists_readValue_of_readItem h.symm
            · exact ih h
          · exact ih h

theorem itemsAfter_subset {skip : Nat} {s key value : List Char}
    (h : .assignment key value ∈ itemsAfter skip s) : value ⊆ s := by
  obtain ⟨t, ht, rfl⟩ := exists_readValue h
  exact List.Subset.trans (readValue_subset t) ht

namespace Keys

/-- The keys that are listed have values from the text. -/
def From (text : List Char) (keys : Keys) : Prop := ∀ e ∈ keys.values, e.2.toList ⊆ text

/-- The value of a key is empty, or one that is assigned. -/
theorem valueIn_cases {items : List Item} {key value : String} (h : valueIn items key = some value) :
    value = "" ∨ ∃ k, .assignment k value.toList ∈ items := by
  refine List.foldlRecOn items _
    (motive := fun found => ∀ v ∈ found, v = "" ∨ ∃ k, .assignment k v.toList ∈ items)
    (fun v hv => absurd hv (Option.not_mem_none v)) (fun found hfound item hitem v hv => ?_) value h
  cases item with
  | assignment k w =>
      dsimp only at hv
      split_ifs at hv
      · cases hv
        exact .inr ⟨k, by rwa [String.toList_ofList]⟩
      · exact hfound v hv
  | word w =>
      dsimp only at hv
      split_ifs at hv
      · cases found with
        | some u => exact hfound v hv
        | none =>
            cases hv
            exact .inl rfl
      · exact hfound v hv

theorem from_read (s : List Char) : From s (read s) := by
  intro e he
  obtain ⟨key, -, hkey⟩ := List.mem_filterMap.1 he
  obtain ⟨value, hvalue, rfl⟩ := Option.map_eq_some_iff.1 hkey
  rcases valueIn_cases hvalue with rfl | ⟨k, hk⟩
  · exact List.nil_subset s
  · exact itemsAfter_subset hk

theorem From.get? {text : List Char} {keys : Keys} (h : From text keys) {key value : String}
    (hget : keys.get? key = some value) : value.toList ⊆ text := by
  rw [Keys.get?, Option.filter_eq_some_iff] at hget
  obtain ⟨before, after, hsplit, -⟩ := List.lookup_eq_some_iff.1 hget.1
  exact h (key, value) (hsplit ▸ List.mem_append_right _ List.mem_cons_self)

end Keys

theorem dropMarkers_subset (s : List Char) : dropMarkers s ⊆ s := by
  induction s using dropMarkers.induct with
  | case1 rest ih =>
      rw [dropMarkers]
      refine List.Subset.trans ih ?_
      exact List.subset_cons_of_subset _ (List.subset_cons_of_subset _ (List.subset_cons_self _ _))
  | case2 s hs =>
      rw [dropMarkers]
      · exact List.Subset.refl _
      · exact hs

/-- The values in a directive stand in its line. -/
theorem from_read_line (line : List Char) : Keys.From line (read line).keys := by
  have hbody : Text.trim (dropMarkers (Text.trimStart line)) ⊆ line :=
    List.Subset.trans (Text.trim_subset _) (List.Subset.trans (dropMarkers_subset _)
      (List.dropWhile_sublist _).subset)
  have hrest : ((Text.splitOnce? Text.isBlank (Text.trim (dropMarkers (Text.trimStart line)))).getD
      (Text.trim (dropMarkers (Text.trimStart line)), [])).2 ⊆ line := by
    cases hsplit : Text.splitOnce? Text.isBlank (Text.trim (dropMarkers (Text.trimStart line))) with
    | none => exact List.nil_subset _
    | some parts => exact List.Subset.trans (Text.splitOnce?_subset hsplit).2 hbody
  intro e he
  refine List.Subset.trans ?_ hrest
  unfold read at he
  dsimp only at he
  split_ifs at he
  · refine Keys.from_read _ e ?_
    rw [Keys.dropLeading] at he
    split_ifs at he
    · exact (List.mem_filter.1 he).1
    · exact he
  · exact Keys.from_read _ e he

end Directive

/-- A height is kept within its range. -/
theorem Numeric.Binary.toInt_mem {f : Format} (x : Binary f) {low high : Int} (hlow : low ≤ 0)
    (hhigh : 0 ≤ high) : low ≤ x.toInt low high ∧ x.toInt low high ≤ high := by
  cases x with
  | nan negative => exact ⟨hlow, hhigh⟩
  | infinite negative =>
      rw [Binary.toInt]
      split <;> omega
  | finite negative m e h =>
      rw [Binary.toInt]
      omega

end StimOverlay
