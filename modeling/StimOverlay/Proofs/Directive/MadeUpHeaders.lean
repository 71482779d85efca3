import StimOverlay.Build.Anchor
import StimOverlay.Proofs.Directive.WrittenAssignments

/-! Made-up headers. The header that is made up for a polygon is a directive, and reads back as the style
that the polygon was drawn with: its colour is made of numbers and commas, which stand between
parentheses. -/

namespace StimOverlay

open Build Emission Numeric

namespace Build.MadeUpHeader

variable (h : MadeUpHeader)

theorem mem_colour {colour : Colour} {c : Char} (hc : c ∈ colour.text.toList) :
    c ∈ ',' :: numberChars := by
  rw [Colour.text, String.toList_intercalate] at hc
  rcases Text.mem_intercalate hc with hc | ⟨t, ht, hc⟩
  · exact List.mem_cons.2 (.inl (List.mem_singleton.1 hc))
  · obtain ⟨number, hnumber, rfl⟩ := List.mem_map.1 ht
    obtain ⟨x, -, rfl⟩ := List.mem_map.1 hnumber
    exact List.mem_cons_of_mem _ (Binary.mem_numberChars hc)

/-- The parenthesized colour. -/
def fill : String := "(" ++ h.colour.text ++ ")"

theorem toList_fill : h.fill.toList = '(' :: h.colour.text.toList ++ [')'] := by
  simp [fill]

/-- What the header assigns. -/
def pairs : List (String × String) :=
  [("sheet", defaultSheet), ("stroke", "none"), ("fill", h.fill)]

theorem assignable_pairs : Directive.Assignable h.pairs := by
  have hbare : ∀ value ∈ [defaultSheet, "none"], Directive.IsBare value.toList := by decide
  have hcolour : ∀ c ∈ ',' :: numberChars, c ∉ ['(', ')', ';', '#'] :=
    List.all_iff_forall_prop.1 (by decide)
  intro p hp
  simp only [pairs, List.mem_cons, List.not_mem_nil, or_false] at hp
  rcases hp with rfl | rfl | rfl
  · exact ⟨by decide, .inl (hbare _ (by simp))⟩
  · exact ⟨by decide, .inl (hbare _ (by simp))⟩
  · exact ⟨show Directive.isKey "fill".toList by decide,
      .inr ⟨_, h.toList_fill, fun c hc => hcolour c (mem_colour hc)⟩⟩

theorem toList_text : h.text.toList = Directive.line "POLY" h.pairs := by
  have htext : h.text =
      "##! POLY sheet=" ++ defaultSheet ++ " stroke=none fill=(" ++ h.colour.text ++ ")" := rfl
  rw [htext, Directive.line, pairs, Directive.assignments]
  simp [toList_fill, defaultSheet]

theorem newline_notMem_pairs : ∀ p ∈ h.pairs, '\n' ∉ p.2.toList := by
  have hplain : ∀ c ∈ ['(', ')'] ++ ',' :: numberChars, c ≠ '\n' :=
    List.all_iff_forall_prop.1 (by decide)
  intro p hp hmem
  simp only [pairs, List.mem_cons, List.not_mem_nil, or_false] at hp
  rcases hp with rfl | rfl | rfl
  · exact absurd hmem (by decide)
  · exact absurd hmem (by decide)
  · refine hplain '\n' ?_ rfl
    rw [h.toList_fill] at hmem
    rcases List.mem_append.1 hmem with hmem | hmem
    · rcases List.mem_cons.1 hmem with hmem | hmem
      · cases hmem
      · exact List.mem_append_right _ (mem_colour hmem)
    · cases List.mem_singleton.1 hmem

theorem trim_text : Text.trim h.text.toList = h.text.toList := by
  rw [toList_text, Directive.trim_line (by simp [pairs]) h.assignable_pairs]

theorem getLast?_text : ∀ c ∈ h.text.toList.getLast?, Text.isBlank c = false := by
  rw [toList_text]
  exact Directive.getLast?_line (by simp [pairs]) h.assignable_pairs

theorem isDirective_text : Source.isDirective h.text.toList := by
  rw [toList_text]
  exact Directive.isDirective_line _ _

theorem isTrivia_text : State.isTrivia h.text.toList = false := by
  rw [toList_text]
  exact Directive.isTrivia_line _ _

theorem mark_text :
    Block.mark (Text.trim h.text.toList) = .plain := by
  rw [h.trim_text, h.toList_text]
  exact Directive.mark_line _ _

/-- A header reads back as the directive that it stands for. -/
theorem read_text : (Directive.read h.text.toList).kind = .polygon ∧
    (Directive.read h.text.toList).keys.get? "SHEET" = some h.style.sheet ∧
      (Directive.read h.text.toList).keys.get? "STROKE" = h.style.stroke ∧
        (Directive.read h.text.toList).keys.get? "FILL" = h.style.fill := by
  have hcommand : "POLY" ∈ Directive.writtenCommands := by decide
  obtain ⟨hkind, hkeys⟩ := Directive.read_line hcommand (show h.pairs ≠ [] by simp [pairs])
    h.assignable_pairs
  have hassigned : (h.pairs.map fun p => (Directive.upperCase p.1, p.2)) =
      [("SHEET", defaultSheet), ("STROKE", "none"), ("FILL", h.fill)] := by
    obtain ⟨hsheet, hstroke, hfill⟩ : Directive.upperCase "sheet" = "SHEET" ∧
        Directive.upperCase "stroke" = "STROKE" ∧ Directive.upperCase "fill" = "FILL" := by decide
    simp only [pairs, List.map_cons, List.map_nil, hsheet, hstroke, hfill]
  have hget := Directive.Keys.get?_assignments h.assignable_pairs hassigned
    (show ["SHEET", "STROKE", "FILL"].Nodup by decide)
  rw [← hkeys, ← toList_text] at hget
  rw [← toList_text] at hkind
  exact ⟨hkind, hget "SHEET", hget "STROKE", hget "FILL"⟩

end Build.MadeUpHeader

end StimOverlay
