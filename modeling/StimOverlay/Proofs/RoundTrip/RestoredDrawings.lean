import StimOverlay.Proofs.RoundTrip.RestoredLayers

/-! Restored drawings. The text that is written for a circuit with its sheets and polygons is parsed into
the same sheets, and layer by layer into the same figures and operations, up to the numbers of qubits and
to the order of operations within a layer. -/

namespace StimOverlay

open Build Emission Numeric

/-- Circuit `c'` is circuit `c` written out with its sheets and polygons, and read again. -/
structure RestoredDrawing (c c' : Circuit) : Prop where
  /-- The qubits that the circuit acts on or draws over are numbered without gaps. -/
  dense : ∀ q ∈ mentioned c .annotated,
    (numberingOf c .annotated).number q < (mentioned c .annotated).length
  /-- They are numbered by their coordinates, and by their own numbers where these do not decide. -/
  ordered : ∀ q ∈ mentioned c .annotated, ∀ r ∈ mentioned c .annotated,
    ((numberingOf c .annotated).number q < (numberingOf c .annotated).number r ↔ rank c q < rank c r)
  sheets : sheetsOf c' = sheetsOf c
  /-- The layers are the same, except that those at the end that hold nothing to write are left out;
  one layer stays. -/
  layers : ∃ kept dropped, c.layers = kept ++ dropped ∧
    List.Forall₂ (fun l l' => Rewritten (numberingOf c .annotated) l l' ∧
      figuresOf l' = (figuresOf l).map (Figure.renumber (numberingOf c .annotated))) kept c'.layers ∧
    (∀ l ∈ dropped, l.operationsAndMarkers = [] ∧ figuresOf l = []) ∧
    (kept.length = 1 ∨ ∃ l, kept.getLast? = some l ∧
      (l.operationsAndMarkers ≠ [] ∨ figuresOf l ≠ []))
  /-- Every qubit keeps its coordinates; they are written without negative zeros. -/
  coordinates : ∀ q ∈ mentioned c .annotated,
    c'.coordsOf ((numberingOf c .annotated).number q) = (c.coordsOf q).place

namespace Build

variable {text : String}

/-- The sheets are declared again, in the same order. -/
theorem sheetsOf_parse_annotatedText (h : ExpressibleIn .annotated (parse text).circuit)
    (hrecord : (parse text).circuit.measurements ≤ Lexeme.offsetBound) :
    sheetsOf (parse (parse text).circuit.annotatedText).circuit = sheetsOf (parse text).circuit := by
  rw [parse, sheetsOf_parseWith, draft, Circuit.annotatedText, text_eq_textOf,
    (retraced_parse h hrecord).shows.sheets, (filled_parse text .annotated).2.sheets]
  rfl

/-- Writing a circuit with its sheets and polygons and reading it again restores both. The circuit has no
tags and no arguments, coordinates that middles can be taken of, and values that need no quotes; its colours
are read as they are written. No list in memory is longer than the bound on its record, which is the
greatest offset that text can name. -/
theorem parse_annotatedText_restored (text : String)
    (h : ExpressibleIn .annotated (parse text).circuit)
    (hrecord : (parse text).circuit.measurements ≤ Lexeme.offsetBound) :
    (parse (parse text).circuit.annotatedText).diagnostics = [] ∧
      RestoredDrawing (parse text).circuit (parse (parse text).circuit.annotatedText).circuit := by
  obtain ⟨kept, dropped, hsplit, hredrawn, hdropped, hlast⟩ := exists_kept h hrecord
  refine ⟨(retraced_parse h hrecord).diagnostics, fun q hq => number_lt_length hq,
    fun q hq r hr => number_lt_number_iff h.finite hq hr, sheetsOf_parse_annotatedText h hrecord,
    ⟨kept, dropped, hsplit, ?_, hdropped, hlast⟩, fun q hq => coordsOf_parse_text h hrecord hq⟩
  exact hredrawn.imp fun l l' hlayer => ⟨hlayer.toRewritten, hlayer.figures⟩

/-- A polygon on a sheet of its own, over qubits that nothing else is about, and a layer that holds only a
highlight. -/
theorem restored_drawing :
    let c := (parse ("##! SHEET NAME=Top Z=3\nQUBIT_COORDS(1) 0\nM 0\n##! POLY SHEET=Top FILL=(a b)\n" ++
      "#!pragma POLYGON(1,0,0,0.5) 1 2\nTICK\n##! HIGHLIGHT TARGET=QUBIT QUBITS=3")).circuit
    mentioned c .annotated = [0, 1, 2, 3] ∧ sheetsOf c = [(defaultSheet, 0), ("Top", 3)] ∧
      c.layers.map (fun l => (figuresOf l).map (·.body.corners)) = [[[1, 2]], []] ∧
      (parse c.annotatedText).diagnostics = [] ∧ RestoredDrawing c (parse c.annotatedText).circuit := by
  let text := "##! SHEET NAME=Top Z=3\nQUBIT_COORDS(1) 0\nM 0\n##! POLY SHEET=Top FILL=(a b)\n" ++
    "#!pragma POLYGON(1,0,0,0.5) 1 2\nTICK\n##! HIGHLIGHT TARGET=QUBIT QUBITS=3"
  -- A single evaluation, so that the text is parsed once.
  obtain ⟨hmentioned, hsheets, hfigures, hcount, hbare, hwithin, hplain, hstyles, hcolours⟩ :
      mentioned (parse text).circuit .annotated = [0, 1, 2, 3] ∧
      sheetsOf (parse text).circuit = [(defaultSheet, 0), ("Top", 3)] ∧
      (parse text).circuit.layers.map (fun l => (figuresOf l).map (·.body.corners)) = [[[1, 2]], []] ∧
      (parse text).circuit.measurements = 1 ∧
      (∀ op ∈ (parse text).circuit.operationsAndMarkers, IsWritten op → op.tag = "" ∧ op.args = []) ∧
      (∀ q ∈ mentioned (parse text).circuit .annotated,
        (((parse text).circuit.coordsOf q).x.isFinite ∧
            |((parse text).circuit.coordsOf q).x.toRat| ≤ 2 ^ 53) ∧
          ((parse text).circuit.coordsOf q).y.isFinite ∧
            |((parse text).circuit.coordsOf q).y.toRat| ≤ 2 ^ 53) ∧
      (∀ sheet ∈ (parse text).circuit.sheets, Directive.IsPlain sheet.name.toList) ∧
      (∀ l ∈ (parse text).circuit.layers, ∀ f ∈ figuresOf l,
        (∀ v ∈ f.style.stroke, Directive.IsPlain v.toList) ∧
          ∀ v ∈ f.style.fill, Directive.IsPlain v.toList) ∧
      ∀ l ∈ (parse text).circuit.layers, ∀ f ∈ figuresOf l, ∀ v ∈ f.body.colour.components,
        v.isFinite ∧ v.ReadsBack := by
    decide +kernel
  have hrecord : (parse text).circuit.measurements ≤ Lexeme.offsetBound := by
    rw [hcount]
    decide
  exact ⟨hmentioned, hsheets, hfigures, parse_annotatedText_restored text
    ⟨hbare, hwithin, fun _ => ⟨hplain, hstyles, hcolours⟩⟩ hrecord⟩

end Build

end StimOverlay
