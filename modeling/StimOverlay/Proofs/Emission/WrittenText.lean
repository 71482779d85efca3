import StimOverlay.Proofs.Emission.RegroupedActions
import StimOverlay.Proofs.Emission.SoundLines
import StimOverlay.Proofs.RoundTrip.CleanParse
import StimOverlay.Proofs.Source.EscapedTags

/-! Written text. Whatever tags a line carries, no line break stands in its text, so the written text of a
circuit, cut into lines, gives the texts of the written lines one by one; and what holds of the lines,
of their references to the record and of their operations, holds of the text. -/

namespace StimOverlay

open Build Numeric

/-- A string without line breaks. -/
def Unbroken (s : String) : Prop := ∀ c ∈ s.toList, c ≠ '\n' ∧ c ≠ '\r'

instance (s : String) : Decidable (Unbroken s) := List.decidableBAll _ s.toList

namespace Unbroken

variable {s t : String}

theorem append (hs : Unbroken s) (ht : Unbroken t) : Unbroken (s ++ t) := by
  rw [Unbroken, String.toList_append]
  exact List.forall_mem_append.2 ⟨hs, ht⟩

theorem intercalate {ls : List String} (hs : Unbroken s) (h : ∀ l ∈ ls, Unbroken l) :
    Unbroken (String.intercalate s ls) := by
  intro c hc
  rw [String.toList_intercalate] at hc
  rcases Text.mem_intercalate hc with hc | ⟨l, hl, hc⟩
  · exact hs c hc
  · obtain ⟨piece, hpiece, rfl⟩ := List.mem_map.1 hl
    exact h piece hpiece c hc

theorem join {ls : List String} (h : ∀ l ∈ ls, Unbroken l) : Unbroken (String.join ls) := by
  intro c hc
  rw [String.toList_join] at hc
  obtain ⟨l, hl, hc⟩ := List.mem_flatMap.1 hc
  exact h l hl c hc

theorem of_numberChars (h : ∀ c ∈ s.toList, c ∈ numberChars) : Unbroken s := by
  have hplain : ∀ c ∈ numberChars, c ≠ '\n' ∧ c ≠ '\r' :=
    List.all_iff_forall_prop.1 (by decide)
  exact fun c hc => hplain c (h c hc)

theorem binary {f : Format} (x : Binary f) : Unbroken x.text :=
  of_numberChars fun _ => Binary.mem_numberChars

theorem nat (k : Nat) : Unbroken (toString k) := by
  refine of_numberChars fun c hc => List.mem_append_right _ (Instruction.digitChars_of_mem (n := k) ?_)
  simpa using hc

theorem int (k : Int) : Unbroken (toString k) := by
  cases k with
  | ofNat k => exact nat k
  | negSucc k => exact append (s := "-") (by decide) (nat (k + 1))

end Unbroken

namespace Emission

variable {n : Numbering} {op : Operation}

theorem unbroken_point (p : Point) : Unbroken p.text :=
  ((Unbroken.binary _).append (by decide)).append (.binary _)

theorem unbroken_numbers (qubits : List QubitId) : Unbroken (n.text qubits) := by
  refine .intercalate (by decide) fun l hl => ?_
  obtain ⟨q, -, rfl⟩ := List.mem_map.1 hl
  exact .nat _

theorem unbroken_recordText (k : Int) : Unbroken (recordText k) :=
  (Unbroken.append (by decide) (.int k)).append (by decide)

theorem unbroken_names : (∀ g ∈ Gate.standard, Unbroken g.name) ∧
    ∀ family ∈ Gate.productFamilies, Unbroken family := by decide

theorem unbroken_headName (h : Context.standard.Knows op.gate) : Unbroken op.headName := by
  rcases h.cases with hmem | ⟨family, hfamily, bases, -, hgate⟩
  · rw [headName_of_mem_standard hmem]
    exact unbroken_names.1 _ hmem
  · rw [headName_product hfamily hgate]
    exact unbroken_names.2 _ hfamily

/-- Line breaks in a tag are escaped. -/
theorem unbroken_heading (h : Context.standard.Knows op.gate) : Unbroken op.heading := by
  have htag : Unbroken (String.ofList (escapeTag op.tag.toList)) := by
    intro c hc
    rw [String.toList_ofList] at hc
    rcases Tag.mem_escapeTag hc with hc | ⟨-, -, hreturn, hfeed⟩
    · have hletters : ∀ c ∈ ['\\', 'C', 'r', 'n', 'B'], c ≠ '\n' ∧ c ≠ '\r' :=
        List.all_iff_forall_prop.1 (by decide)
      exact hletters c hc
    · exact ⟨hfeed, hreturn⟩
  have hargs : Unbroken (String.intercalate ", " (op.args.map Binary.text)) := by
    refine .intercalate (by decide) fun l hl => ?_
    obtain ⟨x, -, rfl⟩ := List.mem_map.1 hl
    exact .binary x
  have hbrackets : Unbroken ("[" ++ String.ofList (escapeTag op.tag.toList) ++ "]") :=
    (Unbroken.append (by decide) htag).append (by decide)
  have hparentheses : Unbroken ("(" ++ String.intercalate ", " (op.args.map Binary.text) ++ ")") :=
    (Unbroken.append (by decide) hargs).append (by decide)
  refine ((unbroken_headName h).append ?_).append ?_
  · split_ifs
    · decide
    · exact hbrackets
  · split_ifs
    · decide
    · exact hparentheses

theorem unbroken_productText (h : Context.standard.Knows op.gate) : Unbroken (productText n op) := by
  refine .intercalate (by decide) fun l hl => ?_
  obtain ⟨⟨base, q⟩, hfactor, rfl⟩ := List.mem_map.1 hl
  refine Unbroken.append ?_ (.nat _)
  rcases h.cases with hmem | ⟨family, hfamily, bases, -, hgate⟩
  · rw [Gate.bases?_of_mem_standard hmem] at hfactor
    cases hfactor
  · rw [hgate, Gate.bases?_product hfamily, Option.getD_some] at hfactor
    obtain ⟨pauli, -, rfl⟩ := List.mem_map.1 (List.of_mem_zip hfactor).1
    have hletter : ∀ pauli : Pauli, Unbroken (String.singleton pauli.letter) := by
      intro pauli
      cases pauli <;> decide
    exact hletter pauli

theorem text_ne_empty (l : Line) : l.text n ≠ "" := by
  have happend {s t : String} (h : s ≠ "") : s ++ t ≠ "" :=
    fun hnil => h (String.append_eq_empty_iff.1 hnil).1
  have hblank (heading : String) : heading ++ " " ≠ "" :=
    fun hnil => absurd (String.append_eq_empty_iff.1 hnil).2 (by decide)
  cases l with
  | sheet => exact happend (happend (happend (by decide)))
  | coordinates => exact happend (happend (happend (by decide)))
  | polygonHeader => exact happend (happend (happend (by decide)))
  | polygonBody => exact happend (happend (happend (by decide)))
  | operations heading => exact happend (hblank heading)
  | products heading => exact happend (hblank heading)
  | detector label => exact happend (hblank label.text)
  | observable => exact happend (happend (happend (by decide)))
  | tick => exact show "TICK" ≠ "" by decide

end Emission

namespace Build

open Emission

variable {text : String} {n : Numbering}

theorem unbroken_groupLines {heading : String} {ops : List Operation}
    (hbuilt : ∀ op ∈ ops, WellBuilt .standard op) (hheaded : ∀ op ∈ ops, op.heading = heading)
    {line : Line} (h : line ∈ groupLines heading ops) : Unbroken (line.text n) := by
  obtain ⟨held, hne, hsubset, hline⟩ := groupLines_cases h
  obtain ⟨op, rest, rfl⟩ := List.exists_cons_of_ne_nil hne
  have hop : op ∈ ops := hsubset List.mem_cons_self
  have hopening : Unbroken (heading ++ " ") :=
    (hheaded op hop ▸ unbroken_heading (hbuilt op hop).known).append (by decide)
  rcases hline with rfl | rfl
  · exact hopening.append (unbroken_numbers _)
  · refine hopening.append (.intercalate (by decide) fun l hl => ?_)
    obtain ⟨product, hproduct, rfl⟩ := List.mem_map.1 hl
    exact unbroken_productText (hbuilt product (hsubset hproduct)).known

theorem unbroken_of_mem_lines {line : Line} (hl : line ∈ lines (parse text).circuit .plain) :
    Unbroken (line.text n) := by
  cases plainLine_of_mem hl with
  | coordinates =>
      exact ((Unbroken.append (by decide) (unbroken_point _)).append (by decide)).append (.nat _)
  | @detector label place hplace offsets =>
      have hlabel : Unbroken label.text :=
        (((Unbroken.append (by decide) (hplace ▸ unbroken_point place)).append (by decide)).append
          (.nat label.time)).append (by decide)
      refine (hlabel.append (by decide)).append (.intercalate (by decide) fun l hl => ?_)
      obtain ⟨k, -, rfl⟩ := List.mem_map.1 hl
      exact unbroken_recordText k
  | observable index offsets =>
      refine ((Unbroken.append (by decide) (.nat index)).append (by decide)).append (.join fun l hl => ?_)
      obtain ⟨k, -, rfl⟩ := List.mem_map.1 hl
      exact Unbroken.append (by decide) (unbroken_recordText k)
  | tick => exact show Unbroken "TICK" by decide
  | group hmem hbuilt _ _ hheaded => exact unbroken_groupLines hbuilt hheaded hmem

/-- The written text, cut into lines, gives the texts of the written lines. -/
theorem lines_stimText (text : String) :
    let c := (parse text).circuit
    Text.lines c.stimText.toList =
      (lines c .plain).map fun l => (l.text (numberingOf c .plain)).toList := by
  intro c
  have hplain : ∀ l ∈ (lines c .plain).map fun l => (l.text (numberingOf c .plain)).toList,
      l ≠ [] ∧ ∀ x ∈ l, x ≠ '\n' ∧ x ≠ '\r' := by
    intro l hl
    obtain ⟨line, hline, rfl⟩ := List.mem_map.1 hl
    exact ⟨fun hnil => text_ne_empty line (String.toList_eq_nil_iff.1 hnil), unbroken_of_mem_lines hline⟩
  have hended : Text.Ended ((lines c .plain).map fun l => (l.text (numberingOf c .plain)).toList) := by
    refine ⟨fun l hl hfeed => ((hplain l hl).2 _ hfeed).1 rfl, fun l hl hreturn => ?_, fun hlast => ?_⟩
    · exact ((hplain l (List.mem_of_mem_dropLast hl)).2 _ (List.mem_of_getLast? hreturn)).2 rfl
    · exact (hplain _ (List.mem_of_getLast? hlast)).1 rfl
  rw [← hended.lines_eq, Circuit.stimText, text_eq_textOf, textOf, String.toList_intercalate,
    List.map_map, Text.joinWith_eq_intercalate]
  rfl

/-- The written text refers to the record correctly and completely: among its lines there is one for each
collected detector and observable, and no other that refers to the record; it counts back to the
measurements that were collected, all of them written before it, the last of them in its own layer. -/
theorem stimText_refers_to_record (text : String) :
    let c := (parse text).circuit
    let summary := c.detectors .output
    Text.lines c.stimText.toList =
        (lines c .plain).map (fun l => (l.text (numberingOf c .plain)).toList) ∧
      ∃ entries, entries.Perm (summary.detectors.map (fun d => (none, d.offsets)) ++
          summary.observables.map fun e => (some e.1, e.2)) ∧
        List.Forall₂ (Placed c (written 0 (lines c .plain))) (mentions 0 [] (lines c .plain)) entries := by
  intro c summary
  obtain ⟨entries, hperm, -, hfits⟩ := fits_lines text .plain
  exact ⟨lines_stimText text, entries, hperm, hfits.imp fun m entry => placed_of_fits .plain⟩

/-- The written text keeps what the operations of each layer do: the operations on its lines are those of
the layers, each under its own heading, and on every qubit the same actions follow one another. -/
theorem stimText_preserves_actions (text : String) :
    let c := (parse text).circuit
    let acting := actingOf (lines c .plain)
    Text.lines c.stimText.toList =
        (lines c .plain).map (fun l => (l.text (numberingOf c .plain)).toList) ∧
      acting.Perm (placedIn c.layers) ∧
      (∀ line ∈ lines c .plain, ∀ op ∈ line.ops, line.heading? = some op.heading) ∧
      ∀ q, List.Forall₂ (fun a b => a.1 = b.1 ∧ a.2.sameAction b.2)
        (acting.filter (q ∈ ·.2.targets)) ((placedIn c.layers).filter (q ∈ ·.2.targets)) := by
  intro c acting
  exact ⟨lines_stimText text, actingOf_perm text .plain,
    fun line hline op hop => (mem_lines_of_operation hline hop).2, forall₂_actingOf text .plain⟩

end Build

end StimOverlay
