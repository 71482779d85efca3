import StimOverlay.Proofs.Run.PlacedOperations
import StimOverlay.Proofs.Run.StepChanges

/-! Declared places. A declaration that a circuit accepts takes no place that another qubit has, so behind
every list of acts no two qubits are at one place. -/

namespace StimOverlay

open Numeric

namespace Build

theorem getElem?_insert_of_nat (m : Std.TreeMap Nat α) (k j : Nat) (a : α) :
    (m.insert k a)[j]? = if k = j then some a else m[j]? := by
  rw [Std.TreeMap.getElem?_insert]
  by_cases h : k = j
  · rw [if_pos h, if_pos (by rw [h]; exact Std.ReflCmp.compare_self)]
  · rw [if_neg h, if_neg (by simpa using h)]

/-- No two qubits are at one place. -/
def Apart (coords : Std.TreeMap QubitId Point) : Prop :=
  ∀ (q r : QubitId) (p p' : Point), coords[q]? = some p → coords[r]? = some p' →
    p.place = p'.place → q = r

theorem Apart.insert {coords : Std.TreeMap QubitId Point} (h : Apart coords) {q : QubitId} {p : Point}
    (howner : ∀ (r : QubitId) (p' : Point), coords[r]? = some p' → p'.place = p.place → r = q) :
    Apart (coords.insert q p) := by
  intro r r' p₁ p₂ hr hr' hplace
  rw [getElem?_insert_of_nat] at hr hr'
  by_cases hqr : q = r
  · rw [if_pos hqr] at hr
    cases hr
    by_cases hqr' : q = r'
    · rw [← hqr, hqr']
    · rw [if_neg hqr'] at hr'
      exact absurd (howner r' p₂ hr' hplace.symm).symm hqr'
  · rw [if_neg hqr] at hr
    by_cases hqr' : q = r'
    · rw [if_pos hqr'] at hr'
      cases hr'
      exact absurd (howner r p₁ hr hplace).symm hqr
    · rw [if_neg hqr'] at hr'
      exact h r r' p₁ p₂ hr hr' hplace

/-- Coordinates of qubits that text can name, no two at one place. -/
structure Situated (coords : Std.TreeMap QubitId Point) : Prop where
  named : ∀ (q : QubitId) (p : Point), coords[q]? = some p → q ≤ maxQubitId
  apart : ∀ (q r : QubitId) (p p' : Point), coords[q]? = some p → coords[r]? = some p' →
    p.place = p'.place → q = r

theorem qubitAt?_eq_none {coords : Std.TreeMap QubitId Point} {p : Point} :
    ({ coords } : Circuit).qubitAt? p = none ↔
      ∀ (r : QubitId) (p' : Point), coords[r]? = some p' → p'.place ≠ p.place := by
  rw [Circuit.qubitAt?, Option.map_eq_none_iff, List.find?_eq_none]
  constructor
  · intro h r p' hr
    simpa using h (r, p') (Std.TreeMap.mem_toList_iff_getElem?_eq_some.2 hr)
  · rintro h ⟨r, p'⟩ hmem
    simpa using h r p' (Std.TreeMap.mem_toList_iff_getElem?_eq_some.1 hmem)

theorem exists_of_qubitAt? {coords : Std.TreeMap QubitId Point} {p : Point} {owner : QubitId}
    (h : ({ coords } : Circuit).qubitAt? p = some owner) :
    ∃ p', coords[owner]? = some p' ∧ p'.place = p.place := by
  obtain ⟨e, he, rfl⟩ := Option.map_eq_some_iff.1 h
  refine ⟨e.2, ?_, by simpa using List.find?_some he⟩
  exact Std.TreeMap.mem_toList_iff_getElem?_eq_some.1 (List.mem_of_find?_eq_some he)

theorem Situated.insert {coords : Std.TreeMap QubitId Point} (h : Situated coords) {q : QubitId}
    (hq : q ≤ maxQubitId) {p : Point}
    (howner : ∀ (r : QubitId) (p' : Point), coords[r]? = some p' → p'.place = p.place → r = q) :
    Situated (coords.insert q p) where
  named r p' hr := by
      rw [getElem?_insert_of_nat] at hr
      by_cases hqr : q = r
      · rwa [← hqr]
      · rw [if_neg hqr] at hr
        exact h.named r p' hr
  apart := Apart.insert h.apart howner

theorem situated_empty : Situated ∅ where
  named q p h := by simp at h
  apart q r p p' h := by simp at h

/-- What a declaration comes to: it takes a place that no other qubit has, or names the one that has
it. -/
theorem declare_cases {c : Circuit} (h : Apart c.coords) (q : QubitId) (p : Point) :
    (∃ owner p', owner ≠ q ∧ c.coords[owner]? = some p' ∧ p'.place = p.place ∧
      c.declare q p = .error (.coordinatesTaken p owner)) ∨
      (∀ (r : QubitId) (p' : Point), c.coords[r]? = some p' → p'.place = p.place → r = q) ∧
        c.declare q p =
          .ok ({ c with coords := c.coords.insert q p }.modifyQubit q (·.moveTo p)) := by
  unfold Circuit.declare
  cases howner : c.qubitAt? p with
  | none =>
      refine .inr ⟨fun r p' hr hplace => ?_, rfl⟩
      exact absurd hplace (qubitAt?_eq_none.1 howner r p' hr)
  | some owner =>
      obtain ⟨p', hp', hplace⟩ := exists_of_qubitAt? howner
      by_cases heq : owner = q
      · refine .inr ⟨fun r p'' hr hplace' => ?_, by simp only [heq, if_true]⟩
        exact (h r owner p'' p' hr hp' (hplace'.trans hplace.symm)).trans heq
      · exact .inl ⟨owner, p', heq, hp', hplace, by simp only [heq, if_false]⟩

/-- A declaration that a circuit accepts takes the place of no other qubit. -/
theorem owner_of_accept? {c : Circuit} (h : Apart c.coords) {e e' : QubitId × Point}
    (he : accept? c e = some e') {r : QubitId} {p' : Point} (hr : c.coords[r]? = some p')
    (hplace : p'.place = e.2.place) : r = e.1 := by
  obtain ⟨owner, p'', -, -, -, hrefused⟩ | ⟨hfree, -⟩ := declare_cases h e.1 e.2
  · rw [accept?, hrefused] at he
    cases he
  · exact hfree r p' hr hplace

theorem Situated.enter {s : State} (h : Situated s.circuit.coords) (a : Act) :
    Situated (enter s.circuit.coords (s.accepted? a)) := by
  cases haccepted : s.accepted? a with
  | none => exact h
  | some e =>
      obtain ⟨e', hdeclaration, haccept⟩ := Option.bind_eq_some_iff.1 haccepted
      obtain ⟨⟨line, i⟩, hi, hdeclared⟩ := Option.bind_eq_some_iff.1 hdeclaration
      obtain ⟨inverted, htargets⟩ := exists_of_declaration? hdeclared
      obtain ⟨-, -, rfl⟩ := Option.map_eq_some_iff.1 haccept
      have hmem : Target.qubit e'.1 inverted ∈ i.targets := htargets ▸ List.mem_singleton_self _
      have hnamed : e'.1 ≤ maxQubitId := inRange_of_instruction? hi _ hmem e'.1 rfl
      exact h.insert hnamed fun r p' => owner_of_accept? h.apart haccept

/-- The declared coordinates behind every list of acts. -/
theorem situated_stateAfter (ctx : Context) (acts : List Act) :
    Situated (stateAfter ctx acts).circuit.coords := by
  refine stateAfter_induction (P := fun _ s => Situated s.circuit.coords) situated_empty ?_ acts
  intro acts a s h
  rw [coords_after]
  exact h.enter a

end Build

end StimOverlay
