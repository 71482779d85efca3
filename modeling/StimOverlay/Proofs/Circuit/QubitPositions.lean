import StimOverlay.Proofs.Circuit.QubitArena
import StimOverlay.Proofs.Run.DeclaredPlaces

/-! Positions of qubits. Whatever is declared, stored and pinned, in whichever order, the table of
coordinates, the stored qubits and their pins agree: a qubit is where it was declared last, and drawn
there too except on an axis that has been pinned. -/

namespace StimOverlay

open Build Numeric

/-- What the last element that has something has. -/
def lastOf (f : α → Option β) (l : List α) : Option β := (l.filterMap f).getLast?

theorem lastOf_append (f : α → Option β) (l m : List α) :
    lastOf f (l ++ m) = (lastOf f m).or (lastOf f l) := by
  rw [lastOf, List.filterMap_append, List.getLast?_append]
  rfl

theorem lastOf_singleton (f : α → Option β) (a : α) : lastOf f [a] = f a := by
  unfold lastOf
  cases h : f a with
  | none => simp [h]
  | some b => simp [h]

theorem lastOf_concat (f : α → Option β) (l : List α) (a : α) :
    lastOf f (l ++ [a]) = (f a).or (lastOf f l) := by
  rw [lastOf_append, lastOf_singleton]

theorem lastOf_toList (f : α → Option β) (o : Option α) : lastOf f o.toList = o.bind f := by
  cases o with
  | none => rfl
  | some a => exact lastOf_singleton f a

/-- A change of what a qubit is displayed with: its number, its coordinates and its pins stay. -/
def Qubit.dress (q : Qubit) (f : Qubit → Qubit) : Qubit :=
  { f q with id := q.id, stim := q.stim, panel := q.panel, pinnedX := q.pinnedX, pinnedY := q.pinnedY }

/-- A qubit that is declared at `p`, and pinned to what there is of `x` and `y`. -/
structure Qubit.Shown (i : QubitId) (p : Point) (x y : Option Binary64) (q : Qubit) : Prop where
  id : q.id = i
  stim : q.stim = p
  pinnedX : q.pinnedX = x.isSome
  pinnedY : q.pinnedY = y.isSome
  panelX : q.panel.x = x.getD p.x
  panelY : q.panel.y = y.getD p.y

namespace Qubit.Shown

variable {i : QubitId} {p : Point} {x y : Option Binary64} {q : Qubit}

theorem fresh (i : QubitId) : Shown i .origin none none { id := i } := ⟨rfl, rfl, rfl, rfl, rfl, rfl⟩

theorem dress (h : Shown i p x y q) (f : Qubit → Qubit) : Shown i p x y (q.dress f) :=
  ⟨h.id, h.stim, h.pinnedX, h.pinnedY, h.panelX, h.panelY⟩

theorem moveTo (h : Shown i p x y q) (p' : Point) : Shown i p' x y (q.moveTo p') where
  id := h.id
  stim := rfl
  pinnedX := h.pinnedX
  pinnedY := h.pinnedY
  panelX := by
    simp only [Qubit.moveTo, h.pinnedX, h.panelX]
    cases x <;> rfl
  panelY := by
    simp only [Qubit.moveTo, h.pinnedY, h.panelY]
    cases y <;> rfl

theorem pin (h : Shown i p x y q) (x' y' : Option Binary64) :
    Shown i p (x'.or x) (y'.or y) (q.pin x' y') where
  id := h.id
  stim := h.stim
  pinnedX := by
    simp only [Qubit.pin, h.pinnedX]
    cases x' <;> simp
  pinnedY := by
    simp only [Qubit.pin, h.pinnedY]
    cases y' <;> simp
  panelX := by
    simp only [Qubit.pin, h.panelX]
    cases x' <;> rfl
  panelY := by
    simp only [Qubit.pin, h.panelY]
    cases y' <;> rfl

end Qubit.Shown

namespace Circuit

inductive Call where
  | declare (q : QubitId) (p : Point)
  /-- Makes a qubit, if it is not there, and changes at most what it is displayed with. -/
  | access (q : QubitId) (dress : Qubit → Qubit)
  | pin (q : QubitId) (x y : Option Binary64)

/-- The circuit behind a call. One that refuses a declaration stays as it is. -/
def call (c : Circuit) : Call → Circuit
  | .declare q p =>
      match c.declare q p with
      | .ok d => d
      | .error _ => c
  | .access q dress => c.modifyQubit q (·.dress dress)
  | .pin q x y => c.modifyQubit q (·.pin x y)

def afterCalls (calls : List Call) : Circuit := calls.foldl call .empty

/-- The declaration that a call makes, if the circuit accepts it. -/
def acceptedBy (c : Circuit) : Call → Option (QubitId × Point)
  | .declare q p => accept? c (q, p)
  | _ => none

/-- The accepted declarations among calls, in order. -/
def accepted (c : Circuit) : List Call → List (QubitId × Point)
  | [] => []
  | a :: rest => (c.acceptedBy a).toList ++ (c.call a).accepted rest

/-- The coordinates that a declaration gives to qubit `q`. -/
def declaredFor (q : QubitId) (e : QubitId × Point) : Option Point :=
  if e.1 = q then some e.2 else none

/-- What a call pins the first axis of qubit `q` to. -/
def Call.pinX? (q : QubitId) : Call → Option Binary64
  | .pin r x _ => if r = q then x else none
  | _ => none

/-- What a call pins the second axis of qubit `q` to. -/
def Call.pinY? (q : QubitId) : Call → Option Binary64
  | .pin r _ y => if r = q then y else none
  | _ => none

/-- The tables of a circuit agree with each other and with the calls that it has behind it. -/
structure Agrees (calls : List Call) (c : Circuit) : Prop where
  apart : ∀ (q r : QubitId) (p p' : Point), c.coords[q]? = some p → c.coords[r]? = some p' →
    p.place = p'.place → q = r
  declared : ∀ q : QubitId, c.coords[q]? = lastOf (declaredFor q) (accepted .empty calls)
  covered : ∀ (q : QubitId) (p : Point), c.coords[q]? = some p →
    ∃ x, c.qubits[q]? = some x ∧ x.stim = p
  dense : ∀ (i : Nat) (x : Qubit), c.qubits[i]? = some x → x.id = i
  panelX : ∀ (i : Nat) (x : Qubit), c.qubits[i]? = some x →
    x.panel.x = (lastOf (Call.pinX? i) calls).getD x.stim.x
  panelY : ∀ (i : Nat) (x : Qubit), c.qubits[i]? = some x →
    x.panel.y = (lastOf (Call.pinY? i) calls).getD x.stim.y
  refused : ∀ (q : QubitId) (p : Point) (e : CircuitError), c.declare q p = .error e ↔
    ∃ owner p', owner ≠ q ∧ c.coords[owner]? = some p' ∧ p'.place = p.place ∧
      e = .coordinatesTaken p owner
  unchanged : ∀ (q : QubitId) (p : Point) (e : CircuitError), c.declare q p = .error e →
    c.call (.declare q p) = c

/-- Qubit `i`, a fresh one if it is not stored. -/
def look (c : Circuit) (i : QubitId) : Qubit := c.qubits[i]?.getD { id := i }

theorem look_of_stored {c : Circuit} {i : Nat} {x : Qubit} (h : c.qubits[i]? = some x) :
    c.look i = x := by
  rw [look, h]
  rfl

theorem look_modifyQubit (c : Circuit) (q : QubitId) (f : Qubit → Qubit) (i : QubitId) :
    (c.modifyQubit q f).look i = if q = i then f (c.look i) else c.look i := by
  have hgrown : (grow c.qubits q)[i]?.getD { id := i } = c.look i := by
    rw [getElem?_grow, look]
    split_ifs with hold hnew
    · rfl
    · rw [Array.getElem?_eq_none (Nat.le_of_not_lt hold), Option.getD_some, Option.getD_none]
    · rw [Array.getElem?_eq_none (Nat.le_of_not_lt hold)]
  rw [look, getElem?_modifyQubit]
  by_cases hi : q = i
  · subst hi
    have hsize : q < (grow c.qubits q).size := by
      rw [size_grow]
      exact Nat.lt_of_lt_of_le (Nat.lt_succ_self q) (Nat.le_max_right _ _)
    rw [if_pos rfl, if_pos rfl, ← hgrown, Array.getElem?_eq_getElem hsize]
    rfl
  · rw [if_neg hi, if_neg hi, hgrown]

/-- What every call keeps. -/
structure Tracks (calls : List Call) (c : Circuit) : Prop where
  apart : Apart c.coords
  declared : ∀ q : QubitId, c.coords[q]? = lastOf (declaredFor q) (accepted .empty calls)
  covered : ∀ (q : QubitId) (p : Point), c.coords[q]? = some p → q < c.qubits.size
  shown : ∀ i : QubitId, (c.look i).Shown i (c.coords[i]?.getD .origin)
    (lastOf (Call.pinX? i) calls) (lastOf (Call.pinY? i) calls)

theorem accepted_concat (c : Circuit) (calls : List Call) (a : Call) :
    c.accepted (calls ++ [a]) =
      c.accepted calls ++ ((calls.foldl call c).acceptedBy a).toList := by
  induction calls generalizing c with
  | nil => simp [accepted]
  | cons b rest ih => rw [List.cons_append, accepted, ih, accepted, List.append_assoc]; rfl

theorem lastOf_accepted_concat (calls : List Call) (a : Call) (q : QubitId) :
    lastOf (declaredFor q) (accepted .empty (calls ++ [a])) =
      (((afterCalls calls).acceptedBy a).bind (declaredFor q)).or
        (lastOf (declaredFor q) (accepted .empty calls)) := by
  rw [accepted_concat, lastOf_append, lastOf_toList]
  rfl

namespace Tracks

variable {calls : List Call}

theorem start : Tracks [] .empty where
  apart q r p p' h := by simp [empty] at h
  declared q := Std.TreeMap.getElem?_emptyc
  covered q p h := by simp [empty] at h
  shown i := by
    have hnone : Circuit.empty.coords[i]? = none := Std.TreeMap.getElem?_emptyc
    rw [hnone]
    exact .fresh i

/-- The step of a call that declares nothing and changes one qubit. -/
theorem modifyQubit (h : Tracks calls (afterCalls calls)) {a : Call} {q : QubitId}
    {f : Qubit → Qubit} (hnone : (afterCalls calls).acceptedBy a = none)
    (hf : ∀ (i : QubitId) (p : Point) (x : Qubit),
      x.Shown i p (lastOf (Call.pinX? i) calls) (lastOf (Call.pinY? i) calls) →
        (if q = i then f x else x).Shown i p
          (lastOf (Call.pinX? i) (calls ++ [a])) (lastOf (Call.pinY? i) (calls ++ [a]))) :
    Tracks (calls ++ [a]) ((afterCalls calls).modifyQubit q f) where
  apart := h.apart
  declared r := by
    rw [lastOf_accepted_concat, hnone]
    exact h.declared r
  covered r p hr := by
    rw [size_modifyQubit]
    exact Nat.lt_of_lt_of_le (h.covered r p hr) (Nat.le_max_left _ _)
  shown i := by
    rw [look_modifyQubit]
    exact hf i _ _ (h.shown i)

theorem access (h : Tracks calls (afterCalls calls)) (q : QubitId) (dress : Qubit → Qubit) :
    Tracks (calls ++ [.access q dress]) ((afterCalls calls).call (.access q dress)) := by
  refine h.modifyQubit rfl fun i p x hx => ?_
  rw [lastOf_concat, lastOf_concat]
  by_cases hi : q = i
  · rw [if_pos hi]
    exact hx.dress dress
  · rw [if_neg hi]
    exact hx

theorem pin (h : Tracks calls (afterCalls calls)) (q : QubitId) (x y : Option Binary64) :
    Tracks (calls ++ [.pin q x y]) ((afterCalls calls).call (.pin q x y)) := by
  refine h.modifyQubit rfl fun i p z hz => ?_
  rw [lastOf_concat, lastOf_concat]
  by_cases hi : q = i
  · simp only [Call.pinX?, Call.pinY?, if_pos hi]
    exact hz.pin x y
  · simp only [Call.pinX?, Call.pinY?, if_neg hi]
    exact hz

/-- A declaration that is refused leaves everything as it was. -/
theorem refused (h : Tracks calls (afterCalls calls)) {q : QubitId} {p : Point} {e : CircuitError}
    (he : (afterCalls calls).declare q p = .error e) :
    Tracks (calls ++ [.declare q p]) (afterCalls calls) where
  apart := h.apart
  declared r := by
    rw [lastOf_accepted_concat, acceptedBy, accept?, he]
    exact h.declared r
  covered := h.covered
  shown i := by
    rw [lastOf_concat, lastOf_concat]
    exact h.shown i

theorem declare (h : Tracks calls (afterCalls calls)) (q : QubitId) (p : Point) :
    Tracks (calls ++ [.declare q p]) ((afterCalls calls).call (.declare q p)) := by
  obtain ⟨owner, p', -, -, -, he⟩ | ⟨hfree, hok⟩ := declare_cases h.apart q p
  · rw [call, he]
    exact h.refused he
  · rw [call, hok]
    refine ⟨h.apart.insert hfree, fun r => ?_, fun r p' hr => ?_, fun i => ?_⟩
    · rw [lastOf_accepted_concat, acceptedBy, accept?, hok]
      change ((afterCalls calls).coords.insert q p)[r]? = (declaredFor r (q, p)).or _
      rw [getElem?_insert_of_nat, declaredFor]
      split_ifs
      · rfl
      · exact h.declared r
    · change ((afterCalls calls).coords.insert q p)[r]? = some p' at hr
      rw [getElem?_insert_of_nat] at hr
      change r < (Circuit.modifyQubit _ q _).qubits.size
      rw [size_modifyQubit]
      split_ifs at hr with hqr
      · exact Nat.lt_of_lt_of_le (hqr ▸ Nat.lt_succ_self q) (Nat.le_max_right _ _)
      · exact Nat.lt_of_lt_of_le (h.covered r p' hr) (Nat.le_max_left _ _)
    · have hshown := h.shown i
      change Qubit.Shown i (((afterCalls calls).coords.insert q p)[i]?.getD .origin) _ _
        ((Circuit.modifyQubit _ q _).look i)
      rw [look_modifyQubit, getElem?_insert_of_nat, lastOf_concat, lastOf_concat]
      split_ifs
      · exact hshown.moveTo p
      · exact hshown

theorem afterCalls (calls : List Call) : Tracks calls (afterCalls calls) := by
  induction calls using List.reverseRecOn with
  | nil => exact start
  | append_singleton calls a ih =>
      rw [Circuit.afterCalls, List.foldl_concat]
      cases a with
      | declare q p => exact ih.declare q p
      | access q dress => exact ih.access q dress
      | pin q x y => exact ih.pin q x y

end Tracks

/-- After any calls, coordinates, stored qubits and pins agree, and a declaration is refused exactly
for the place of another qubit, which the refusal names. -/
theorem agrees_afterCalls (calls : List Call) : Agrees calls (afterCalls calls) := by
  have h := Tracks.afterCalls calls
  refine ⟨h.apart, h.declared, fun q p hq => ?_, fun i x hx => ?_, fun i x hx => ?_,
    fun i x hx => ?_, fun q p e => ?_, fun q p e he => by rw [call, he]⟩
  · obtain ⟨x, hx⟩ : ∃ x, (afterCalls calls).qubits[q]? = some x :=
      ⟨_, Array.getElem?_eq_getElem (h.covered q p hq)⟩
    have hstim := (h.shown q).stim
    rw [look_of_stored hx, hq] at hstim
    exact ⟨x, hx, hstim⟩
  · have hid := (h.shown i).id
    rwa [look_of_stored hx] at hid
  · have hpanel := (h.shown i).panelX
    rwa [← (h.shown i).stim, look_of_stored hx] at hpanel
  · have hpanel := (h.shown i).panelY
    rwa [← (h.shown i).stim, look_of_stored hx] at hpanel
  · obtain ⟨owner, p', hne, hcoords, hplace, herror⟩ | ⟨hfree, hok⟩ := declare_cases h.apart q p
    · rw [herror]
      constructor
      · intro he
        exact ⟨owner, p', hne, hcoords, hplace, (Except.error.inj he).symm⟩
      · rintro ⟨owner', p'', -, hcoords', hplace', rfl⟩
        rw [h.apart owner owner' p' p'' hcoords hcoords' (hplace.trans hplace'.symm)]
    · rw [hok]
      constructor
      · intro he
        cases he
      · rintro ⟨owner, p', hne, hcoords, hplace, -⟩
        exact absurd (hfree owner p' hcoords hplace) hne

end Circuit

end StimOverlay
