import StimOverlay.Proofs.Layer.LayeredRuns

/-! The qubits that a run names. However a qubit comes into a circuit, by a gate, a mark, a declaration
or something drawn, its number is one that circuit text may use; and the qubits that are stored stand
at the positions of their own numbers. Every act keeps this, also one that halts. -/

namespace StimOverlay

open Numeric

namespace Qubit

/-- The panel has the declared coordinate on every axis that is not pinned. -/
structure Follows (q : Qubit) : Prop where
  x : q.pinnedX = false → q.panel.x = q.stim.x
  y : q.pinnedY = false → q.panel.y = q.stim.y

theorem follows_moveTo (q : Qubit) (p : Point) : (q.moveTo p).Follows where
  x h := if_neg (by rw [show q.pinnedX = false from h]; exact Bool.false_ne_true)
  y h := if_neg (by rw [show q.pinnedY = false from h]; exact Bool.false_ne_true)

theorem Follows.pin {q : Qubit} (h : q.Follows) (x y : Option Binary64) : (q.pin x y).Follows where
  x hx := by
    obtain ⟨hpinned, hnone⟩ := Bool.or_eq_false_iff.1 hx
    rw [Option.isSome_eq_false_iff, Option.isNone_iff_eq_none] at hnone
    rw [hnone]
    exact h.x hpinned
  y hy := by
    obtain ⟨hpinned, hnone⟩ := Bool.or_eq_false_iff.1 hy
    rw [Option.isSome_eq_false_iff, Option.isNone_iff_eq_none] at hnone
    rw [hnone]
    exact h.y hpinned

end Qubit

/-- Stored qubits: each at the position of its own number, with a panel that follows. -/
structure Arena (qubits : Array Qubit) : Prop where
  size : qubits.size ≤ maxQubitId + 1
  id : ∀ (i : Nat) (q : Qubit), qubits[i]? = some q → q.id = i
  follows : ∀ (i : Nat) (q : Qubit), qubits[i]? = some q → q.Follows

namespace Circuit

theorem size_grow (qubits : Array Qubit) (q : QubitId) :
    (grow qubits q).size = max qubits.size (q + 1) := by
  rw [grow, Array.size_append, Array.size_map, Array.size_range]
  omega

/-- Growing keeps the qubits that are there and appends fresh ones. -/
theorem getElem?_grow (qubits : Array Qubit) (q i : Nat) :
    (grow qubits q)[i]? =
      if i < qubits.size then qubits[i]? else if i ≤ q then some { id := i } else none := by
  rw [grow, Array.getElem?_append]
  split_ifs with hold hnew
  · rfl
  · rw [Array.getElem?_map, Array.getElem?_range]
    have hlt : i - qubits.size < q + 1 - qubits.size := by omega
    simp only [hlt, if_true, Option.map_some, Option.some_inj]
    rw [Nat.add_sub_cancel' (by omega)]
  · rw [Array.getElem?_map, Array.getElem?_range]
    have hle : ¬i - qubits.size < q + 1 - qubits.size := by omega
    simp [hle]

theorem getElem?_modifyQubit (c : Circuit) (q : QubitId) (f : Qubit → Qubit) (i : Nat) :
    (c.modifyQubit q f).qubits[i]? =
      if q = i then (grow c.qubits q)[i]?.map f else (grow c.qubits q)[i]? :=
  Array.getElem?_modify

theorem size_modifyQubit (c : Circuit) (q : QubitId) (f : Qubit → Qubit) :
    (c.modifyQubit q f).qubits.size = max c.qubits.size (q + 1) := by
  rw [modifyQubit, Array.size_modify, size_grow]

end Circuit

theorem arena_empty : Arena #[] where
  size := Nat.zero_le _
  id i q h := by simp at h
  follows i q h := by simp at h

theorem Arena.grow {qubits : Array Qubit} (h : Arena qubits) {q : QubitId} (hq : q ≤ maxQubitId) :
    Arena (Circuit.grow qubits q) where
  size := by
    rw [Circuit.size_grow]
    exact Nat.max_le.2 ⟨h.size, Nat.succ_le_succ hq⟩
  id i x hx := by
    rw [Circuit.getElem?_grow] at hx
    split_ifs at hx
    · exact h.id i x hx
    · cases hx
      rfl
  follows i x hx := by
    rw [Circuit.getElem?_grow] at hx
    split_ifs at hx
    · exact h.follows i x hx
    · cases hx
      exact ⟨fun _ => rfl, fun _ => rfl⟩

theorem Arena.modifyQubit {c : Circuit} (h : Arena c.qubits) {q : QubitId} (hq : q ≤ maxQubitId)
    {f : Qubit → Qubit} (hid : ∀ x, (f x).id = x.id) (hf : ∀ x, x.Follows → (f x).Follows) :
    Arena (c.modifyQubit q f).qubits where
  size := by
    rw [Circuit.size_modifyQubit]
    exact Nat.max_le.2 ⟨h.size, Nat.succ_le_succ hq⟩
  id i x hx := by
    rw [Circuit.getElem?_modifyQubit] at hx
    split_ifs at hx
    · obtain ⟨y, hy, rfl⟩ := Option.map_eq_some_iff.1 hx
      rw [hid, (h.grow hq).id i y hy]
    · exact (h.grow hq).id i x hx
  follows i x hx := by
    rw [Circuit.getElem?_modifyQubit] at hx
    split_ifs at hx
    · obtain ⟨y, hy, rfl⟩ := Option.map_eq_some_iff.1 hx
      exact hf y ((h.grow hq).follows i y hy)
    · exact (h.grow hq).follows i x hx

namespace Layer

theorem mem_mark {l : Layer} {op op' : Operation} :
    op' ∈ (l.mark op).operationsAndMarkers ↔ op' ∈ l.operationsAndMarkers ∨ op' = op := by
  rw [operationsAndMarkers, Layer.mark, Array.toList_push, ← List.append_assoc, List.mem_append,
    List.mem_singleton]
  rfl

theorem mem_insert {l : Layer} {op op' : Operation} :
    op' ∈ (l.insert op).operationsAndMarkers ↔ op' ∈ l.operationsAndMarkers ∨ op' = op := by
  rw [operationsAndMarkers, Layer.insert, Array.toList_push, List.mem_append, List.mem_append,
    List.mem_singleton, operationsAndMarkers, List.mem_append, or_right_comm]

end Layer

/-- Text may name every qubit that the layer acts on or refers to. -/
structure Layer.Named (l : Layer) : Prop where
  operations : ∀ op ∈ l.operationsAndMarkers, ∀ q ∈ op.targets, q ≤ maxQubitId
  overlays : ∀ o ∈ l.overlays.toList, ∀ q ∈ o.qubits, q ≤ maxQubitId

namespace Layer.Named

theorem empty : Layer.empty.Named where
  operations op hop := by simp [operationsAndMarkers, Layer.empty] at hop
  overlays o ho := by simp [Layer.empty] at ho

variable {l : Layer}

theorem mark (h : l.Named) {op : Operation} (hop : ∀ q ∈ op.targets, q ≤ maxQubitId) :
    (l.mark op).Named where
  operations op' hop' := by
    rcases mem_mark.1 hop' with hop' | rfl
    · exact h.operations op' hop'
    · exact hop
  overlays := h.overlays

theorem insert (h : l.Named) {op : Operation} (hop : ∀ q ∈ op.targets, q ≤ maxQubitId) :
    (l.insert op).Named where
  operations op' hop' := by
    rcases mem_insert.1 hop' with hop' | rfl
    · exact h.operations op' hop'
    · exact hop
  overlays := h.overlays

theorem draw (h : l.Named) {o : Overlay} (ho : ∀ q ∈ o.qubits, q ≤ maxQubitId) :
    (l.draw o).Named where
  operations := h.operations
  overlays o' ho' := by
    rw [Layer.draw, Array.toList_push, List.mem_append, List.mem_singleton] at ho'
    rcases ho' with ho' | rfl
    · exact h.overlays o' ho'
    · exact ho

end Layer.Named

/-- Text may name every qubit of every layer. -/
def Schedule.Named (s : Schedule) : Prop := ∀ l ∈ s.toList, l.Named

namespace Schedule.Named

variable {s : Schedule}

theorem modify (h : s.Named) (k : Nat) {f : Layer → Layer} (hf : ∀ l : Layer, l.Named → (f l).Named) :
    (s.modify k f).Named := forall_modify h k hf

theorem modifyCurrent (h : s.Named) {f : Layer → Layer} (hf : ∀ l : Layer, l.Named → (f l).Named) :
    (s.modifyCurrent f).Named := forall_modifyCurrent h hf

theorem advance (h : s.Named) {l : Layer} (hl : l.Named) : (s.advance l).Named :=
  forall_advance h hl

theorem place (h : s.Named) {op : Operation} (hop : ∀ q ∈ op.targets, q ≤ maxQubitId) :
    (s.place op).Named :=
  forall_place h .empty (fun _ hl => hl.mark hop) fun _ hl => hl.insert hop

end Schedule.Named

end StimOverlay
