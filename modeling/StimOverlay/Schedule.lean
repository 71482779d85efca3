import StimOverlay.Layer

/-! Schedules: the layers of a circuit in order. There is always a current layer, the last one, in
which operations are placed until one collides or a new layer is called for. -/

namespace StimOverlay

structure Schedule where
  finished : Array Layer := #[]
  current : Layer := .empty

namespace Schedule

def empty : Schedule := {}

def toList (s : Schedule) : List Layer := s.finished.toList ++ [s.current]

/-- The position of the current layer. -/
def position (s : Schedule) : Nat := s.finished.size

def size (s : Schedule) : Nat := s.finished.size + 1

def get? (s : Schedule) (k : Nat) : Option Layer :=
  if k = s.position then some s.current else s.finished[k]?

/-- Finishes the current layer and goes on with `l`. -/
def advance (s : Schedule) (l : Layer) : Schedule := ⟨s.finished.push s.current, l⟩

def modifyCurrent (s : Schedule) (f : Layer → Layer) : Schedule := { s with current := f s.current }

/-- Changes the layer at position `k`, if there is one. -/
def modify (s : Schedule) (k : Nat) (f : Layer → Layer) : Schedule :=
  if k = s.position then s.modifyCurrent f else { s with finished := s.finished.modify k f }

def map (s : Schedule) (f : Layer → Layer) : Schedule := ⟨s.finished.map f, f s.current⟩

theorem toList_ne_nil (s : Schedule) : s.toList ≠ [] := by simp [toList]

theorem length_toList (s : Schedule) : s.toList.length = s.size := by simp [toList, size]

@[simp] theorem toList_advance (s : Schedule) (l : Layer) :
    (s.advance l).toList = s.toList ++ [l] := by simp [toList, advance]

@[simp] theorem toList_map (s : Schedule) (f : Layer → Layer) :
    (s.map f).toList = s.toList.map f := by simp [toList, map]

/-- Places an operation in the current layer, or in a new one when it collides there. -/
def place (s : Schedule) (op : Operation) : Schedule :=
  match s.current.put op with
  | .ok l => { s with current := l }
  | .error c => s.advance (.startingWith c.operation)

/-- The schedule of the layers in reverse order without the empty ones at the end; the first layer
stays in any case. -/
def ofReversed : List Layer → Schedule
  | [] => empty
  | [l] => ⟨#[], l⟩
  | l :: earlier => if l.isEmpty then ofReversed earlier else ⟨earlier.reverse.toArray, l⟩

/-- Drops the empty layers at the end, except the first layer. -/
def trimEnd (s : Schedule) : Schedule := ofReversed s.toList.reverse

end Schedule

end StimOverlay
