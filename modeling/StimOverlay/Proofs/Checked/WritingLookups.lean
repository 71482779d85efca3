import StimOverlay.Proofs.Checked.CollectingLookups
import StimOverlay.Proofs.Emission.DetectorLabels

/-! Checked writing. The search for a free label goes through the coordinates of the places, which are
looked up one by one, and from the last place it goes back to the first one at the next time. The
search stays among the places, and it ends: fewer labels are used than there are times to try. With
this the whole way is checked, from a text over its detectors to the texts that are written for it. -/

namespace StimOverlay

open Build Emission Numeric

namespace Checked

/-- The first unused label in a number of tries, from position `k` at the given time on. The coordinates
are looked up. -/
def seekLabel (used : Std.TreeSet String) (xs ys : List Binary64) :
    Nat → Nat → Nat → Option Label
  | 0, _, _ => none
  | tries + 1, k, time => do
      let (k, time) := if xs.length ≤ k then (0, time + 1) else (k, time)
      let x ← xs[k]?
      let y ← ys[k]?
      let label : Label := ⟨Point.text ⟨x, y⟩, time⟩
      if used.contains label.text then seekLabel used xs ys tries (k + 1) time else some label

/-- A label that is not used yet. -/
def freshLabel (used : Std.TreeSet String) (places : List Point) (time : Nat) : Option Label :=
  seekLabel used (places.map (·.x)) (places.map (·.y)) ((used.size + 1) * places.length) 0 time

def labelDetector (c : Circuit) (time : Nat) (p : Pending) (d : Detector) :
    Option (Line × Pending) :=
  (freshLabel p.labels (labelPlaces c d.qubits) time).map fun label =>
    (.detector label (d.offsets.map p.shift),
      { p with labels := p.labels.insert label.text, time := max p.time (label.time + 1) })

def labelDetectors (c : Circuit) (time : Nat) : Pending → List Detector →
    Option (List Line × Pending)
  | p, [] => some ([], p)
  | p, d :: rest => do
      let (line, p) ← labelDetector c time p d
      let (lines, p) ← labelDetectors c time p rest
      some (line :: lines, p)

def writeDetectors (c : Circuit) (p : Pending) : Option (List Line × Pending) :=
  let ready := p.detectors.takeWhile fun d => p.isWritten d.offsets
  labelDetectors c p.time { p with detectors := p.detectors.drop ready.length } ready

def bodyLines (c : Circuit) (d : Detail) : Pending → List Layer → Option (List Line)
  | _, [] => some []
  | p, l :: rest => do
      let (detectors, p) ← writeDetectors c (p.advance l)
      let (observables, p) := p.writeObservables
      let more ← bodyLines c d p rest
      some (layerLines d l ++ detectors ++ observables ++ .tick :: more)

/-- All lines, without ticks at the end. -/
def lines (c : Circuit) (d : Detail) : Option (List Line) := do
  let summary ← detectors c .output
  let body ← bodyLines c d
    { measurements := c.measurements
      detectors := summary.detectors
      observables := summary.observables } c.layers
  some (((headerLines c d ++ body).reverse.dropWhile (· == .tick)).reverse)

def text (c : Circuit) (d : Detail) : Option String :=
  (lines c d).map fun written =>
    String.intercalate "\n" (written.map (Line.text (Numbering.ofList (numbered c d))))

def stimText (c : Circuit) : Option String := text c .plain

def annotatedText (c : Circuit) : Option String := text c .annotated

def pragmaText (c : Circuit) : Option String :=
  (stimText c).map fun written => String.ofList (Source.restorePragmas written.toList)

/-- Labels of one place at more times than there are used labels are not all used. -/
theorem exists_unused (used : Std.TreeSet String) (place : String) (time : Nat) :
    ∃ j < used.size + 1, used.contains (Label.text ⟨place, time + j⟩) = false := by
  by_contra hnone
  -- These labels would all be used, but there are more of them than used ones.
  let labels := (List.range (used.size + 1)).map fun j => Label.text ⟨place, time + j⟩
  have hnodup : labels.Nodup := by
    refine List.nodup_range.map fun i j hij => ?_
    have htime : time + i = time + j := time_eq_of_text hij
    exact Nat.add_left_cancel htime
  have hused : labels ⊆ used.toList := by
    intro s hs
    obtain ⟨j, hj, rfl⟩ := List.mem_map.1 hs
    rw [Std.TreeSet.mem_toList, ← Std.TreeSet.contains_iff_mem, ← Bool.not_eq_false]
    exact fun hfree => hnone ⟨j, List.mem_range.1 hj, hfree⟩
  have hlength := (hnodup.subperm hused).length_le
  rw [List.length_map, List.length_range, Std.TreeSet.length_toList] at hlength
  exact absurd hlength (Nat.not_succ_le_self _)

variable {used : Std.TreeSet String} {places : List Point}

/-- At one time the search goes through the places that are left. -/
theorem seekLabel_append {tried rest : List Point} (hplaces : tried ++ rest = places)
    (tries time : Nat) :
    seekLabel used (places.map (·.x)) (places.map (·.y)) (rest.length + tries) tried.length time =
      ((rest.map fun place => (⟨place.text, time⟩ : Label)).find? (!used.contains ·.text)).or
        (seekLabel used (places.map (·.x)) (places.map (·.y)) tries places.length time) := by
  induction rest generalizing tried with
  | nil =>
      rw [List.append_nil] at hplaces
      rw [hplaces, List.length_nil, Nat.zero_add]
      rfl
  | cons place rest ih =>
      have hat : places[tried.length]? = some place := by
        rw [← hplaces, List.getElem?_append_right (Nat.le_refl _), Nat.sub_self]
        rfl
      have hinside : ¬(places.map (·.x)).length ≤ tried.length := by
        rw [List.length_map, ← hplaces, List.length_append, List.length_cons]
        omega
      have hmoved : tried ++ [place] ++ rest = places := by
        rw [← hplaces, List.append_assoc]
        rfl
      have hnext := ih hmoved
      rw [List.length_append, List.length_singleton] at hnext
      rw [List.length_cons, Nat.add_right_comm, seekLabel, if_neg hinside, List.map_cons,
        List.find?_cons]
      simp only [List.getElem?_map, hat, Option.map_some, Option.bind_eq_bind, Option.bind_some]
      cases used.contains (Label.text ⟨place.text, time⟩) with
      | false => rfl
      | true => exact hnext

/-- Behind the last place the search goes on with the first one, at the next time. -/
theorem seekLabel_length (hne : places ≠ []) (tries time : Nat) :
    seekLabel used (places.map (·.x)) (places.map (·.y)) tries places.length time =
      seekLabel used (places.map (·.x)) (places.map (·.y)) tries 0 (time + 1) := by
  have hlength : ¬(places.map (·.x)).length ≤ 0 := by
    rw [List.length_map]
    exact Nat.not_le_of_lt (List.length_pos_iff.2 hne)
  cases tries with
  | zero => rfl
  | succ tries =>
      rw [seekLabel, seekLabel, if_neg hlength, if_pos (List.length_map _).le]

/-- The search finds the first free label if one of the times has a free one. -/
theorem seekLabel_eq (hne : places ≠ []) {rounds time : Nat} (hfree : ∃ j < rounds,
      ∃ place ∈ places, used.contains (Label.text ⟨place.text, time + j⟩) = false) :
    seekLabel used (places.map (·.x)) (places.map (·.y)) (rounds * places.length) 0 time =
      some (firstFree used (places.map Point.text) rounds time) := by
  induction rounds generalizing time with
  | zero =>
      obtain ⟨j, hj, -⟩ := hfree
      exact absurd hj (Nat.not_lt_zero j)
  | succ rounds ih =>
      rw [Nat.succ_mul, Nat.add_comm, ← List.length_nil (α := Point),
        seekLabel_append (List.nil_append places), seekLabel_length hne, firstFree, List.map_map]
      cases hfound : (places.map fun place => (⟨place.text, time⟩ : Label)).find?
          (!used.contains ·.text) with
      | some label =>
          simp only [Function.comp_def, hfound]
          rfl
      | none =>
          simp only [Function.comp_def, hfound, Option.none_or]
          obtain ⟨j, hj, place, hplace, hunused⟩ := hfree
          have hused : used.contains (Label.text ⟨place.text, time⟩) = true := by
            simpa using List.find?_eq_none.1 hfound _ (List.mem_map_of_mem hplace)
          -- No label of this time is free, so the free one is of a later time.
          cases j with
          | zero => exact absurd hused (Bool.eq_false_iff.1 hunused)
          | succ j =>
              rw [Nat.add_comm j 1, ← Nat.add_assoc] at hunused
              exact ih ⟨j, Nat.lt_of_succ_lt_succ hj, place, hplace, hunused⟩

theorem freshLabel_eq (hne : places ≠ []) (time : Nat) :
    freshLabel used places time = some (Emission.freshLabel used places time) := by
  obtain ⟨place, rest, rfl⟩ := List.exists_cons_of_ne_nil hne
  obtain ⟨j, hj, hunused⟩ := exists_unused used place.text time
  exact seekLabel_eq hne ⟨j, hj, place, List.mem_cons_self, hunused⟩

variable {c : Circuit}

theorem labelDetector_eq (time : Nat) (p : Pending) (d : Detector) :
    labelDetector c time p d = some (p.labelDetector c time d) := by
  have hne : labelPlaces c d.qubits ≠ [] := by simp [labelPlaces]
  rw [labelDetector, freshLabel_eq hne]
  rfl

theorem labelDetectors_eq (time : Nat) (p : Pending) (ds : List Detector) :
    labelDetectors c time p ds = some (p.labelDetectors c time ds) := by
  induction ds generalizing p with
  | nil => rfl
  | cons d rest ih =>
      rw [labelDetectors, labelDetector_eq]
      simp only [Option.bind_eq_bind, Option.bind_some, ih]
      rfl

theorem bodyLines_eq (d : Detail) (p : Pending) (layers : List Layer) :
    bodyLines c d p layers = some (Emission.bodyLines c d p layers) := by
  induction layers generalizing p with
  | nil => rfl
  | cons l rest ih =>
      rw [bodyLines, writeDetectors, labelDetectors_eq]
      simp only [Option.bind_eq_bind, Option.bind_some, ih]
      rfl

theorem text_eq (h : ∀ l ∈ c.layers, Targeted l) (d : Detail) :
    text c d = some (Emission.text c d) := by
  rw [text, lines, detectors_eq h]
  simp only [Option.bind_eq_bind, Option.bind_some, bodyLines_eq]
  rfl

/-- Nothing is looked up out of range on the way from a text to its circuit, to the detectors of the
circuit in either order and to the texts that are written for it. -/
theorem parse_collect_write (ctx : Context) (text : String) :
    parse ctx text = some (parseWith ctx text) ∧
      (∀ order, detectors (parseWith ctx text).circuit order =
        some ((parseWith ctx text).circuit.detectors order)) ∧
      stimText (parseWith ctx text).circuit = some (parseWith ctx text).circuit.stimText ∧
      annotatedText (parseWith ctx text).circuit =
        some (parseWith ctx text).circuit.annotatedText ∧
      pragmaText (parseWith ctx text).circuit = some (parseWith ctx text).circuit.pragmaText := by
  have htargeted := targeted_parseWith ctx text
  have hstim := text_eq htargeted .plain
  refine ⟨parse_eq ctx text, detectors_eq htargeted, hstim, text_eq htargeted .annotated, ?_⟩
  rw [pragmaText, stimText, hstim]
  rfl

end Checked

end StimOverlay
