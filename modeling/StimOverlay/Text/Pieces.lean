import StimOverlay.Text.Blank

/-! Cutting text into pieces and joining pieces again. -/

namespace StimOverlay.Text

/-- The pieces between the characters that satisfy `p`, empty ones included: always one more piece
than there are such characters. -/
def splitWhere (p : Char → Bool) : List Char → List (List Char)
  | [] => [[]]
  | c :: rest =>
      if p c then [] :: splitWhere p rest
      else match splitWhere p rest with
        | [] => [[c]]
        | piece :: pieces => (c :: piece) :: pieces

theorem splitWhere_ne_nil (p : Char → Bool) (s : List Char) : splitWhere p s ≠ [] := by
  cases s with
  | nil => simp [splitWhere]
  | cons c rest =>
      simp only [splitWhere]
      split
      · simp
      · split <;> simp

/-- What stands before and after the first character that satisfies `p`, if there is one. -/
def splitOnce? (p : Char → Bool) (s : List Char) : Option (List Char × List Char) :=
  match s.dropWhile (!p ·) with
  | [] => none
  | _ :: rest => some (s.takeWhile (!p ·), rest)

/-- The text up to the first character that satisfies `p`. -/
def before (p : Char → Bool) (s : List Char) : List Char := s.takeWhile (!p ·)

/-- A run of characters is cut off as a whole. -/
theorem takeWhile_run {p : Char → Bool} {front back : List Char} (hfront : ∀ c ∈ front, p c)
    (hback : ∀ c ∈ back.head?, p c = false) :
    (front ++ back).takeWhile p = front ∧ (front ++ back).dropWhile p = back := by
  rw [List.takeWhile_append_of_pos hfront, List.dropWhile_append_of_pos hfront]
  cases back with
  | nil => simp
  | cons c back =>
      have hc : ¬p c = true := by simp [hback c rfl]
      rw [List.takeWhile_cons_of_neg hc, List.dropWhile_cons_of_neg hc, List.append_nil]
      exact ⟨rfl, rfl⟩

/-- Drops the last character if it is `c`. -/
def dropLast? (c : Char) (s : List Char) : Option (List Char) :=
  if s.getLast? = some c then some s.dropLast else none

/-- The text up to and including the first character that satisfies `p`, and what follows it. -/
def splitAfter (p : Char → Bool) : List Char → List Char × List Char
  | [] => ([], [])
  | c :: rest =>
      if p c then ([c], rest) else (c :: (splitAfter p rest).1, (splitAfter p rest).2)

theorem splitAfter_append (p : Char → Bool) (s : List Char) :
    (splitAfter p s).1 ++ (splitAfter p s).2 = s := by
  induction s with
  | nil => rfl
  | cons c rest ih =>
      simp only [splitAfter]
      split
      · rfl
      · rw [List.cons_append, ih]

def startsWith (s start : List Char) : Bool := start.isPrefixOf s

/-- The lines of a text. A line ends at a line feed, together with one carriage return before it;
a last line without line feed keeps its carriage return. -/
def lines (text : List Char) : List (List Char) :=
  let pieces := splitWhere (· == '\n') text
  let ended := pieces.dropLast.map fun line => (dropLast? '\r' line).getD line
  match pieces.getLast? with
  | none | some [] => ended
  | some last => ended ++ [last]

/-- The pieces with `separator` between neighbours. -/
def joinWith (separator : List Char) : List (List Char) → List Char
  | [] => []
  | [piece] => piece
  | piece :: pieces => piece ++ separator ++ joinWith separator pieces

theorem joinWith_splitWhere (c : Char) (s : List Char) :
    joinWith [c] (splitWhere (· == c) s) = s := by
  induction s with
  | nil => rfl
  | cons d rest ih =>
      simp only [splitWhere]
      split
      · rename_i h
        have : d = c := by simpa using h
        subst this
        cases h' : splitWhere (· == d) rest with
        | nil => exact absurd h' (splitWhere_ne_nil _ _)
        | cons piece pieces => rw [h'] at ih; simp [joinWith, ih]
      · cases h' : splitWhere (· == c) rest with
        | nil => exact absurd h' (splitWhere_ne_nil _ _)
        | cons piece pieces =>
            rw [h'] at ih
            cases pieces with
            | nil => simp [joinWith] at ih ⊢; exact ih
            | cons q qs => simp [joinWith] at ih ⊢; exact ih

end StimOverlay.Text
