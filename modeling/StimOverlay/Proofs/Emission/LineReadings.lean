import StimOverlay.Emission.Text
import StimOverlay.Proofs.Instruction.WrittenTargets

/-! Readings of lines. A line whose qubits have small new numbers, whose coordinates are finite and whose
offsets are in range is in normal form, and is read as the instruction that it stands for. -/

namespace StimOverlay

open Build Numeric

namespace Instruction

/-- A word of characters with `p` that is read as the given targets. -/
structure Word (p : Char → Bool) (w : List Char × List Target) : Prop where
  word : Text.IsWord w.1
  chars : ∀ c ∈ w.1, p c
  reads : ReadsAs w.1 w.2

theorem Word.of_subset {p : Char → Bool} {chars : List Char} {w : List Char × List Target}
    (hchars : ∀ c ∈ chars, Text.isBlank c = false ∧ c ≠ ',' ∧ p c) (hne : w.1 ≠ [])
    (hw : ∀ c ∈ w.1, c ∈ chars) (hreads : ReadsAs w.1 w.2) : Word p w where
  word := ⟨hne, fun c hc =>
    have hplain := hchars c (hw c hc)
    ⟨hplain.1, hplain.2.1⟩⟩
  chars c hc := (hchars c (hw c hc)).2.2
  reads := hreads

theorem digitChars_of_mem {n : Nat} {c : Char} (h : c ∈ Nat.toDigits 10 n) : c ∈ digitChars :=
  mem_digitChars (isDigit_of_mem_toDigits h)

theorem word_qubit {p : Char → Bool} (hp : ∀ c ∈ digitChars, p c) {q : Nat}
    (hq : q ≤ maxQubitId) : Word p (Nat.toDigits 10 q, [.qubit q false]) := by
  have hplain : ∀ c ∈ digitChars, Text.isBlank c = false ∧ c ≠ ',' :=
    List.all_iff_forall_prop.1 (by decide)
  exact .of_subset (fun c hc => ⟨(hplain c hc).1, (hplain c hc).2, hp c hc⟩) (by simp)
    (fun _ => digitChars_of_mem) (readsAs_qubit hq)

/-- A product, with combiners between its factors. -/
def productChars (factors : Factors) : List Char :=
  ['*'].intercalate (factors.map fun f => f.1.letter :: Nat.toDigits 10 f.2)

theorem word_product {factors : Factors} (hne : factors ≠ []) (h : ∀ f ∈ factors, f.2 ≤ maxQubitId) :
    Word Source.isFactor (productChars factors, productTargets factors) := by
  have hchars : ∀ c ∈ productChars factors, c ∈ ['*', 'X', 'Y', 'Z'] ++ digitChars := by
    intro c hc
    rcases Text.mem_intercalate hc with hc | ⟨w, hw, hc⟩
    · exact List.mem_append_left _ (List.mem_append_left ['X', 'Y', 'Z'] hc)
    · obtain ⟨f, -, rfl⟩ := List.mem_map.1 hw
      rcases List.mem_cons.1 hc with rfl | hc
      · cases f.1 <;> decide
      · exact List.mem_append_right _ (digitChars_of_mem hc)
  refine .of_subset (List.all_iff_forall_prop.1 (by decide)) ?_ hchars (readsAs_product h)
  obtain ⟨f, rest, rfl⟩ := List.exists_cons_of_ne_nil hne
  simp [productChars, Text.intercalate_cons]

theorem word_reference {k : Nat} (hk : k ≤ Lexeme.offsetBound) :
    Word Source.isArgument (Lexeme.reference k, [.record (-k)]) := by
  have hchars : ∀ c ∈ Lexeme.reference k, c ∈ ['r', 'e', 'c', '[', '-', ']'] ++ digitChars := by
    intro c hc
    simp only [Lexeme.reference, List.mem_append] at hc
    rcases hc with (hc | hc) | hc
    · exact List.mem_append_left _ (List.mem_append_left [']'] hc)
    · exact List.mem_append_right _ (digitChars_of_mem hc)
    · exact List.mem_append_left _ (List.mem_append_right ['r', 'e', 'c', '[', '-'] hc)
  exact .of_subset (List.all_iff_forall_prop.1 (by decide)) (by simp [Lexeme.reference]) hchars
    (readsAs_reference hk)

variable {p : Char → Bool} {words : List (List Char × List Target)}

/-- The words of a line, with blanks between them. -/
def sentence (words : List (List Char × List Target)) : List Char :=
  [' '].intercalate (words.map (·.1))

theorem sentence_ne_nil (hwords : ∀ w ∈ words, Word p w) (hne : words ≠ []) : sentence words ≠ [] := by
  obtain ⟨w, rest, rfl⟩ := List.exists_cons_of_ne_nil hne
  rw [sentence, List.map_cons, Text.intercalate_cons]
  simp [(hwords w List.mem_cons_self).word.1]

theorem chars_sentence (hblank : p ' ') (hwords : ∀ w ∈ words, Word p w) :
    ∀ c ∈ sentence words, p c := by
  intro c hc
  rcases Text.mem_intercalate hc with hc | ⟨s, hs, hc⟩
  · rw [List.mem_singleton.1 hc, hblank]
  · obtain ⟨w, hw, rfl⟩ := List.mem_map.1 hs
    exact (hwords w hw).chars c hc

theorem sentence_ends (hwords : ∀ w ∈ words, Word p w) :
    (∀ c ∈ (sentence words).head?, Text.isBlank c = false) ∧
      ∀ c ∈ (sentence words).getLast?, Text.isBlank c = false := by
  refine Text.intercalate_ends fun s hs => ?_
  obtain ⟨w, hw, rfl⟩ := List.mem_map.1 hs
  exact (hwords w hw).word

/-- A line that ends in words is in normal form, if nothing behind its opening can be taken for
shorthand. -/
theorem settled_sentence {head middle : List Char} (hp : Source.isInert p)
    (hopening : Source.isOpening p head) (hmiddle : ∀ c ∈ middle, p c) (hblank : p ' ')
    (hwords : ∀ w ∈ words, Word p w) (hne : words ≠ []) :
    Source.Settled (head ++ (middle ++ sentence words)) := by
  have hbody := sentence_ne_nil hwords hne
  refine Source.settled_of_opening hp hopening (fun c hc => ?_) fun c hc => ?_
  · rcases List.mem_append.1 hc with hc | hc
    · exact hmiddle c hc
    · exact chars_sentence hblank hwords c hc
  · rw [List.getLast?_append_of_ne_nil _ (by simp [hbody]),
      List.getLast?_append_of_ne_nil _ hbody] at hc
    exact (sentence_ends hwords).2 c hc

theorem readTargets_sentence (hwords : ∀ w ∈ words, Word p w)
    (hspaced : Spaced (words.flatMap (·.2))) :
    readTargets (sentence words) = .ok (words.flatMap (·.2)) :=
  readTargets_of_readsAs (readsAs_words fun w hw => ⟨(hwords w hw).reads, (hwords w hw).word⟩)
    hspaced

/-- What is known of a written line: it is in normal form, and it is read as an instruction. -/
structure Readable (line : List Char) (i : Instruction) : Prop where
  settled : Source.Settled line
  read : read line = .ok i

theorem readable_plain {name : List Char} (hp : Source.isInert p) (hblank : p ' ')
    (hparenthesis : p '(' = false) (hopening : Source.isOpening p (name ++ [' ']))
    (hname : isKept name) (hwords : ∀ w ∈ words, Word p w) (hne : words ≠ [])
    (hspaced : Spaced (words.flatMap (·.2))) :
    Readable (name ++ ' ' :: sentence words)
      ⟨String.ofList name, "", [], words.flatMap (·.2)⟩ := by
  have hsettled : Source.Settled (name ++ ' ' :: sentence words) := by
    have h : Source.Settled (name ++ [' '] ++ ([] ++ sentence words)) :=
      settled_sentence hp hopening (by simp) hblank hwords hne
    simpa using h
  obtain ⟨hhead, hlast⟩ := sentence_ends hwords
  refine ⟨hsettled, read_plain hname (fun c hc => ?_) hsettled.trimmed
    (Source.trim_eq_self hhead hlast) (readTargets_sentence hwords hspaced)⟩
  refine ⟨(hsettled.plain c (by simp [hc])).2.1, ?_⟩
  rintro rfl
  rw [chars_sentence hblank hwords _ hc] at hparenthesis
  exact Bool.noConfusion hparenthesis

theorem readable_arguments {name gap : List Char} {numerals : List (List Char × Binary64)}
    (hopening : Source.isOpening Source.isArgument (name ++ ['('])) (hname : isKept name)
    (hgap : IsGap gap) (hnumerals : ∀ p ∈ numerals, IsNumeral p.1 p.2)
    (hwords : ∀ w ∈ words, Word Source.isArgument w) (hne : words ≠ [])
    (hspaced : Spaced (words.flatMap (·.2))) :
    Readable (name ++ '(' :: ((',' :: gap).intercalate (numerals.map (·.1)) ++ ')' :: ' ' ::
        sentence words))
      ⟨String.ofList name, "", numerals.map (·.2), words.flatMap (·.2)⟩ := by
  have hinside : ∀ c ∈ (',' :: gap).intercalate (numerals.map (·.1)) ++ [')', ' '],
      Source.isArgument c := by
    intro c hc
    have hall : ∀ c ∈ ',' :: ' ' :: '.' :: '-' :: digitChars, Source.isArgument c :=
      List.all_eq_true.1 (by decide)
    rcases List.mem_append.1 hc with hc | hc
    · exact hall c (mem_intercalate_numerals hgap hnumerals hc)
    · have hsub : ∀ c ∈ [')', ' '], Source.isArgument c := List.all_eq_true.1 (by decide)
      exact hsub c hc
  have hsettled : Source.Settled (name ++ '(' ::
      ((',' :: gap).intercalate (numerals.map (·.1)) ++ ')' :: ' ' :: sentence words)) := by
    have h : Source.Settled (name ++ ['('] ++
        ((',' :: gap).intercalate (numerals.map (·.1)) ++ [')', ' '] ++ sentence words)) :=
      settled_sentence (by decide) hopening hinside rfl hwords hne
    simpa using h
  obtain ⟨hhead, hlast⟩ := sentence_ends hwords
  refine ⟨hsettled, read_arguments hname hgap hnumerals rfl ?_ hsettled.trimmed
    (Source.trim_eq_self hhead hlast) (readTargets_sentence hwords hspaced)⟩
  intro hhash
  exact (hsettled.plain '#' (by simp [hhash])).2.1 rfl

end Instruction

/-- What is written for the number is read as the number again. Arguments are read in double
precision, so that the text is rounded twice. -/
def Numeric.Binary.ReadsBack (v : Binary32) : Prop :=
  (Binary.readFinite? .binary64 v.text.toList).map (Binary.convert .binary32) = some v

instance (v : Binary32) : Decidable v.ReadsBack := inferInstanceAs (Decidable (_ = _))

theorem Numeric.Binary.isFinite_unsignedZero {f : Format} {x : Binary f} (hx : x.isFinite) :
    x.unsignedZero.isFinite := by
  cases x with
  | finite negative significand exponent h =>
      rw [Binary.unsignedZero]
      split <;> rfl
  | nan negative => exact hx
  | infinite negative => exact hx

namespace Emission

variable {n : Numbering}

theorem toList_numbers (qubits : List QubitId) :
    (n.text qubits).toList = [' '].intercalate (qubits.map fun q => Nat.toDigits 10 (n.number q)) := by
  rw [Numbering.text, String.toList_intercalate, List.map_map]
  simp [Function.comp_def]

/-- The factors of a product with given bases, under their new numbers. -/
def renumberedFactors (n : Numbering) (bases : List Pauli) (targets : List QubitId) : Factors :=
  (bases.zip targets).map fun f => (f.1, n.number f.2)

theorem toList_productText {family : String} (hfamily : family ∈ Gate.productFamilies)
    {bases : List Pauli} {op : Operation} (hop : op.gate = .product family bases) :
    (productText n op).toList = Instruction.productChars (renumberedFactors n bases op.targets) := by
  rw [productText, hop, Gate.bases?_product hfamily, String.toList_intercalate,
    Instruction.productChars, renumberedFactors]
  simp [Function.comp_def, List.zip_map_left]

theorem toList_recordText {k : Nat} (hk : 0 < k) :
    (recordText (-k)).toList = Lexeme.reference k := by
  obtain ⟨k, rfl⟩ := Nat.exists_eq_succ_of_ne_zero (Nat.pos_iff_ne_zero.1 hk)
  have htext : recordText (-(k.succ : Nat)) = "rec[" ++ ("-" ++ toString (k + 1)) ++ "]" := rfl
  rw [htext]
  simp [Lexeme.reference]

theorem toList_point (p : Point) :
    p.text.toList = [',', ' '].intercalate [p.place.x.text.toList, p.place.y.text.toList] := by
  have htext : p.text = p.place.x.text ++ ", " ++ p.place.y.text := rfl
  rw [htext]
  simp

/-- A line in normal form: nothing is left of the marker in front of a polygon. -/
def Line.normal (n : Numbering) : Line → List Char
  | .polygonBody colour corners => s!"POLYGON({colour.text}) {n.text corners}".toList
  | l => (l.text n).toList

/-- A line that is an instruction, not a directive. -/
def Line.IsInstruction : Line → Prop
  | .sheet .. => False
  | .polygonHeader .. => False
  | _ => True

/-- The instruction that a line stands for, up to the arguments of a detector. -/
inductive Line.Means (n : Numbering) : Line → Instruction → Prop where
  | coordinates (place : Point) (q : QubitId) :
      Means n (.coordinates place q)
        ⟨coordinatesName, "", [place.place.x, place.place.y], [.qubit (n.number q) false]⟩
  | operations (name : String) (ops : List Operation) :
      Means n (.operations name ops)
        ⟨name, "", [], (ops.flatMap (·.targets)).map fun q => .qubit (n.number q) false⟩
  | products (family : String) (ops : List Operation) (bases : Operation → List Pauli)
      (hbases : ∀ op ∈ ops, op.gate = .product family (bases op)) :
      Means n (.products family ops)
        ⟨family, "", [], ops.flatMap fun op =>
          Instruction.productTargets (renumberedFactors n (bases op) op.targets)⟩
  | detector (label : Label) (offsets : List Int) (args : List Binary64) :
      Means n (.detector label offsets) ⟨detectorName, "", args, offsets.map .record⟩
  | observable (index : Nat) (offsets : List Int) :
      Means n (.observable index offsets)
        ⟨observableName, "", [.ofNat .binary64 index], offsets.map .record⟩
  | tick : Means n .tick ⟨tickName, "", [], []⟩
  | polygonBody (colour : Colour) (corners : List QubitId) (args : List Binary64)
      (hargs : args.map (Binary.convert .binary32) = colour.components) :
      Means n (.polygonBody colour corners)
        ⟨polygonName, "", args, corners.map fun q => .qubit (n.number q) false⟩

/-- Offsets that references to the record can have. -/
def Referable (offsets : List Int) : Prop :=
  offsets ≠ [] ∧ ∀ o ∈ offsets, o < 0 ∧ -(Lexeme.offsetBound : Int) ≤ o

/-- What it takes for a line to be read as written. -/
def Line.Legible (n : Numbering) : Line → Prop
  | .coordinates place q => place.x.isFinite ∧ place.y.isFinite ∧ n.number q ≤ maxQubitId
  | .operations name ops => (∃ g ∈ Gate.standard, g.name = name) ∧ ops.flatMap (·.targets) ≠ [] ∧
      ∀ op ∈ ops, ∀ q ∈ op.targets, n.number q ≤ maxQubitId
  | .products family ops => family ∈ Gate.productFamilies ∧ ops ≠ [] ∧ ∀ op ∈ ops,
      (∃ bases, bases ≠ [] ∧ op.gate = .product family bases) ∧ op.targets ≠ [] ∧
        ∀ q ∈ op.targets, n.number q ≤ maxQubitId
  | .detector label offsets => (∃ place : Point, place.x.isFinite ∧ place.y.isFinite ∧
      label.place = place.text) ∧ label.time ≤ 2 ^ 64 ∧ Referable offsets
  | .observable index offsets => index < 2 ^ 53 ∧ Referable offsets
  | .tick => True
  | .polygonBody colour corners => (∀ v ∈ colour.components, v.isFinite ∧ v.ReadsBack) ∧
      corners ≠ [] ∧ ∀ q ∈ corners, n.number q ≤ maxQubitId
  | _ => False

theorem isKept_gate : ∀ g ∈ Gate.standard, Instruction.isKept g.name.toList := by decide +kernel

theorem readable_operations {name : String} {ops : List Operation}
    (h : (Line.operations name ops).Legible n) :
    ∃ i, (Line.operations name ops).Means n i ∧
      Instruction.Readable ((Line.operations name ops).text n).toList i := by
  obtain ⟨⟨g, hg, rfl⟩, hne, hnumbers⟩ := h
  refine ⟨_, .operations g.name ops, ?_⟩
  let words : List (List Char × List Target) := (ops.flatMap (·.targets)).map fun q =>
    (Nat.toDigits 10 (n.number q), [.qubit (n.number q) false])
  have htext : ((Line.operations g.name ops).text n).toList =
      g.name.toList ++ ' ' :: Instruction.sentence words := by
    have htext : (Line.operations g.name ops).text n =
      g.name ++ " " ++ n.text (ops.flatMap (·.targets)) := rfl
    rw [htext, String.toList_append, String.toList_append, toList_numbers, Instruction.sentence,
      List.map_map]
    simp
    rfl
  have hwords : ∀ w ∈ words, Instruction.Word Source.isListed w := by
    intro w hw
    obtain ⟨q, hq, rfl⟩ := List.mem_map.1 hw
    obtain ⟨op, hop, hq⟩ := List.mem_flatMap.1 hq
    exact Instruction.word_qubit (List.all_eq_true.1 (by decide)) (hnumbers op hop q hq)
  have htargets : words.flatMap (·.2) =
      (ops.flatMap (·.targets)).map fun q => .qubit (n.number q) false := by
    rw [List.flatMap_map, List.map_eq_flatMap]
  have hspaced : Instruction.Spaced (words.flatMap (·.2)) := by
    rw [htargets]
    refine Instruction.spaced_of_forall_ne fun t ht => ?_
    obtain ⟨q, -, rfl⟩ := List.mem_map.1 ht
    exact Target.noConfusion
  have hreadable := Instruction.readable_plain (by decide) rfl rfl (Source.isOpening_gate g hg)
    (isKept_gate g hg) hwords (by simpa [words] using hne) hspaced
  rw [htargets, String.ofList_toList] at hreadable
  rw [htext]
  exact hreadable

theorem readable_products {family : String} {ops : List Operation}
    (h : (Line.products family ops).Legible n) :
    ∃ i, (Line.products family ops).Means n i ∧
      Instruction.Readable ((Line.products family ops).text n).toList i := by
  obtain ⟨hfamily, hne, hops⟩ := h
  choose! bases hgate using fun op hop => (hops op hop).1
  refine ⟨_, .products family ops bases fun op hop => (hgate op hop).2, ?_⟩
  let factors (op : Operation) : Factors := renumberedFactors n (bases op) op.targets
  let words : List (List Char × List Target) := ops.map fun op =>
    (Instruction.productChars (factors op), Instruction.productTargets (factors op))
  have htext : ((Line.products family ops).text n).toList =
      family.toList ++ ' ' :: Instruction.sentence words := by
    have htext : (Line.products family ops).text n =
      family ++ " " ++ String.intercalate " " (ops.map (productText n)) := rfl
    have hproducts : ops.map (fun op => (productText n op).toList) = words.map (·.1) := by
      rw [List.map_map]
      exact List.map_congr_left fun op hop => toList_productText hfamily (hgate op hop).2
    rw [htext, String.toList_append, String.toList_append, String.toList_intercalate,
      Instruction.sentence, ← hproducts, List.map_map]
    simp
    rfl
  have hwords : ∀ w ∈ words, Instruction.Word Source.isFactor w := by
    intro w hw
    obtain ⟨op, hop, rfl⟩ := List.mem_map.1 hw
    obtain ⟨-, htargets, hnumbers⟩ := hops op hop
    refine Instruction.word_product ?_ fun f hf => ?_
    · simp [factors, renumberedFactors, List.zip_eq_nil_iff, (hgate op hop).1, htargets]
    · obtain ⟨e, he, rfl⟩ := List.mem_map.1 hf
      exact hnumbers _ (List.of_mem_zip he).2
  have htargets : words.flatMap (·.2) =
      ops.flatMap fun op => Instruction.productTargets (factors op) := by
    rw [List.flatMap_map]
  have hspaced : Instruction.Spaced (words.flatMap (·.2)) := by
    rw [htargets]
    exact Instruction.spaced_flatMap fun op _ => Instruction.spaced_product _
  have hkept : ∀ family ∈ Gate.productFamilies, Instruction.isKept family.toList := by
    decide
  have hreadable := Instruction.readable_plain (by decide) rfl rfl
    (Source.isOpening_product family hfamily) (hkept family hfamily) hwords
    (by simpa [words] using hne) hspaced
  rw [htargets, String.ofList_toList] at hreadable
  rw [htext]
  exact hreadable

/-- The words of references to the record. -/
theorem exists_words_of_referable {offsets : List Int} (h : Referable offsets) :
    ∃ words : List (List Char × List Target), words ≠ [] ∧
      (∀ w ∈ words, Instruction.Word Source.isArgument w) ∧
      words.flatMap (·.2) = offsets.map .record ∧
      words.map (·.1) = offsets.map fun o => (recordText o).toList := by
  obtain ⟨hne, hrange⟩ := h
  refine ⟨offsets.map fun o => ((recordText o).toList, [.record o]), by simpa using hne, ?_, ?_, ?_⟩
  · intro w hw
    obtain ⟨o, ho, rfl⟩ := List.mem_map.1 hw
    obtain ⟨hneg, hlow⟩ := hrange o ho
    obtain ⟨k, rfl⟩ : ∃ k : Nat, o = -k := ⟨o.natAbs, by omega⟩
    rw [toList_recordText (by omega)]
    exact Instruction.word_reference (by omega)
  · rw [List.flatMap_map, List.map_eq_flatMap]
  · rw [List.map_map]
    rfl

theorem spaced_records (offsets : List Int) :
    Instruction.Spaced (offsets.map .record) := by
  refine Instruction.spaced_of_forall_ne fun t ht => ?_
  obtain ⟨o, -, rfl⟩ := List.mem_map.1 ht
  exact Target.noConfusion

theorem isKept_argumentNames :
    ∀ name ∈ [coordinatesName, detectorName, observableName, polygonName],
    Instruction.isKept name.toList := by decide

theorem readable_coordinates {place : Point} {q : QubitId}
    (h : (Line.coordinates place q).Legible n) :
    ∃ i, (Line.coordinates place q).Means n i ∧
      Instruction.Readable ((Line.coordinates place q).text n).toList i := by
  obtain ⟨hx, hy, hq⟩ := h
  refine ⟨_, .coordinates place q, ?_⟩
  let numerals : List (List Char × Binary64) :=
    [(place.place.x.text.toList, place.place.x), (place.place.y.text.toList, place.place.y)]
  let words : List (List Char × List Target) :=
    [(Nat.toDigits 10 (n.number q), [.qubit (n.number q) false])]
  have htext : ((Line.coordinates place q).text n).toList = coordinatesName.toList ++
      '(' :: ([',', ' '].intercalate (numerals.map (·.1)) ++ ')' :: ' ' ::
        Instruction.sentence words) := by
    have htext : (Line.coordinates place q).text n =
      coordinatesName ++ "(" ++ place.text ++ ") " ++ toString (n.number q) := rfl
    rw [htext]
    simp [toList_point, Instruction.sentence, words, numerals]
  have hnumerals : ∀ p ∈ numerals, Instruction.IsNumeral p.1 p.2 := by
    intro p hp
    simp only [numerals, List.mem_cons, List.not_mem_nil, or_false] at hp
    rcases hp with rfl | rfl
    · exact Instruction.isNumeral_text (Binary.isFinite_unsignedZero hx)
    · exact Instruction.isNumeral_text (Binary.isFinite_unsignedZero hy)
  have hwords : ∀ w ∈ words, Instruction.Word Source.isArgument w := by
    intro w hw
    rw [List.mem_singleton.1 hw]
    exact Instruction.word_qubit (List.all_eq_true.1 (by decide)) hq
  have hreadable := Instruction.readable_arguments
    (Source.isOpening_arguments coordinatesName (by simp))
    (isKept_argumentNames coordinatesName (by simp)) (.inr rfl) hnumerals hwords (List.cons_ne_nil _ _)
    (Instruction.spaced_of_forall_ne (by simp [words]))
  rw [String.ofList_toList] at hreadable
  rw [htext]
  exact hreadable

theorem readable_detector {label : Label} {offsets : List Int}
    (h : (Line.detector label offsets).Legible n) :
    ∃ i, (Line.detector label offsets).Means n i ∧
      Instruction.Readable ((Line.detector label offsets).text n).toList i := by
  obtain ⟨⟨place, hx, hy, hplace⟩, htime, hoffsets⟩ := h
  obtain ⟨words, hne, hwords, htargets, htexts⟩ := exists_words_of_referable hoffsets
  let numerals : List (List Char × Binary64) :=
    [(place.place.x.text.toList, place.place.x), (place.place.y.text.toList, place.place.y),
      (Nat.toDigits 10 label.time, .ofNat .binary64 label.time)]
  refine ⟨_, .detector label offsets (numerals.map (·.2)), ?_⟩
  have htext : ((Line.detector label offsets).text n).toList = detectorName.toList ++
      '(' :: ([',', ' '].intercalate (numerals.map (·.1)) ++ ')' :: ' ' ::
        Instruction.sentence words) := by
    have htext : (Line.detector label offsets).text n =
      detectorName ++ "(" ++ label.place ++ ", " ++ toString label.time ++ ")" ++ " " ++
        String.intercalate " " (offsets.map recordText) := rfl
    rw [htext, hplace, Instruction.sentence, htexts]
    simp [toList_point, numerals]
    rfl
  have hnumerals : ∀ p ∈ numerals, Instruction.IsNumeral p.1 p.2 := by
    intro p hp
    simp only [numerals, List.mem_cons, List.not_mem_nil, or_false] at hp
    rcases hp with rfl | rfl | rfl
    · exact Instruction.isNumeral_text (Binary.isFinite_unsignedZero hx)
    · exact Instruction.isNumeral_text (Binary.isFinite_unsignedZero hy)
    · exact Instruction.isNumeral_toDigits htime
  have hreadable := Instruction.readable_arguments
    (Source.isOpening_arguments detectorName (by simp))
    (isKept_argumentNames detectorName (by simp)) (.inr rfl) hnumerals hwords hne
    (htargets ▸ spaced_records offsets)
  rw [htargets, String.ofList_toList] at hreadable
  rw [htext]
  exact hreadable

theorem readable_observable {index : Nat} {offsets : List Int}
    (h : (Line.observable index offsets).Legible n) :
    ∃ i, (Line.observable index offsets).Means n i ∧
      Instruction.Readable ((Line.observable index offsets).text n).toList i := by
  obtain ⟨hindex, hoffsets⟩ := h
  obtain ⟨words, hne, hwords, htargets, htexts⟩ := exists_words_of_referable hoffsets
  refine ⟨_, .observable index offsets, ?_⟩
  let numerals : List (List Char × Binary64) := [(Nat.toDigits 10 index, .ofNat .binary64 index)]
  have htext : ((Line.observable index offsets).text n).toList = observableName.toList ++
      '(' :: ([',', ' '].intercalate (numerals.map (·.1)) ++ ')' :: ' ' ::
        Instruction.sentence words) := by
    have htext : (Line.observable index offsets).text n =
      observableName ++ "(" ++ toString index ++ ")" ++
        String.join (offsets.map fun k => " " ++ recordText k) := rfl
    obtain ⟨o, rest, rfl⟩ := List.exists_cons_of_ne_nil hoffsets.1
    have hjoin : (String.join ((o :: rest).map fun k => " " ++ recordText k)).toList =
        ' ' :: [' '].intercalate ((o :: rest).map fun o => (recordText o).toList) := by
      rw [String.toList_join, List.map_cons, List.map_cons, Text.intercalate_cons]
      simp [List.flatMap_map]
    rw [htext, Instruction.sentence, htexts, String.toList_append, hjoin]
    simp [numerals]
  have hnumerals : ∀ p ∈ numerals, Instruction.IsNumeral p.1 p.2 := by
    intro p hp
    rw [List.mem_singleton.1 hp]
    exact Instruction.isNumeral_toDigits (hindex.le.trans (by norm_num))
  have hreadable := Instruction.readable_arguments
    (Source.isOpening_arguments observableName (by simp))
    (isKept_argumentNames observableName (by simp)) (.inr rfl) hnumerals hwords hne
    (htargets ▸ spaced_records offsets)
  rw [htargets, String.ofList_toList] at hreadable
  rw [htext]
  exact hreadable

theorem isNumeral_component {v : Binary32} (hv : v.isFinite) {x : Binary64}
    (hx : Binary.readFinite? .binary64 v.text.toList = some x) :
    Instruction.IsNumeral v.text.toList x where
  nonempty := Binary.text_ne_nil hv
  chars c hc := by
      rcases Binary.mem_text hv hc with h | rfl | rfl
      · simp [Instruction.isNumeralChar, h]
      · rfl
      · rfl
  value := hx

/-- The components of a colour as they are read. -/
theorem exists_numerals {colour : Colour}
    (h : ∀ v ∈ colour.components, v.isFinite ∧ v.ReadsBack) :
    ∃ numerals : List (List Char × Binary64),
      (∀ p ∈ numerals, Instruction.IsNumeral p.1 p.2) ∧
      numerals.map (·.1) = colour.components.map (·.text.toList) ∧
      (numerals.map (·.2)).map (Binary.convert .binary32) = colour.components := by
  generalize colour.components = components at h
  induction components with
  | nil => exact ⟨[], by simp, rfl, rfl⟩
  | cons v rest ih =>
      obtain ⟨⟨hfinite, hback⟩, hrest⟩ := List.forall_mem_cons.1 h
      obtain ⟨x, hx, hconvert⟩ := Option.map_eq_some_iff.1 hback
      obtain ⟨numerals, hnumerals, htexts, hvalues⟩ := ih hrest
      refine ⟨(v.text.toList, x) :: numerals, ?_, by simp [htexts], by
        rw [List.map_cons, List.map_cons, hvalues, hconvert]⟩
      exact List.forall_mem_cons.2 ⟨isNumeral_component hfinite hx, hnumerals⟩

theorem readable_polygonBody {colour : Colour} {corners : List QubitId}
    (h : (Line.polygonBody colour corners).Legible n) :
    ∃ i, (Line.polygonBody colour corners).Means n i ∧
      Instruction.Readable ((Line.polygonBody colour corners).normal n) i := by
  obtain ⟨hcolour, hne, hnumbers⟩ := h
  obtain ⟨numerals, hnumerals, htexts, hvalues⟩ := exists_numerals hcolour
  refine ⟨_, .polygonBody colour corners (numerals.map (·.2)) hvalues, ?_⟩
  let words : List (List Char × List Target) := corners.map fun q =>
    (Nat.toDigits 10 (n.number q), [.qubit (n.number q) false])
  have htext : (Line.polygonBody colour corners).normal n = polygonName.toList ++
      '(' :: ([','].intercalate (numerals.map (·.1)) ++ ')' :: ' ' ::
        Instruction.sentence words) := by
    have htext : (Line.polygonBody colour corners).normal n =
      (polygonName ++ "(" ++ colour.text ++ ") " ++ n.text corners).toList := rfl
    rw [htext, htexts, String.toList_append, toList_numbers, Instruction.sentence, List.map_map]
    simp [Colour.text]
    rfl
  have hwords : ∀ w ∈ words, Instruction.Word Source.isArgument w := by
    intro w hw
    obtain ⟨q, hq, rfl⟩ := List.mem_map.1 hw
    exact Instruction.word_qubit (List.all_eq_true.1 (by decide)) (hnumbers q hq)
  have htargets : words.flatMap (·.2) = corners.map fun q => .qubit (n.number q) false := by
    rw [List.flatMap_map, List.map_eq_flatMap]
  have hspaced : Instruction.Spaced (words.flatMap (·.2)) := by
    rw [htargets]
    refine Instruction.spaced_of_forall_ne fun t ht => ?_
    obtain ⟨q, -, rfl⟩ := List.mem_map.1 ht
    exact Target.noConfusion
  have hreadable := Instruction.readable_arguments
    (Source.isOpening_arguments polygonName (by simp))
    (isKept_argumentNames polygonName (by simp)) (.inl rfl) hnumerals hwords
    (by simpa [words] using hne) hspaced
  rw [htargets, String.ofList_toList] at hreadable
  rw [htext]
  exact hreadable

/-- A legible line is an instruction in normal form, and is read as what it stands for. -/
theorem readable_of_legible {l : Line} (h : l.Legible n) :
    ∃ i, l.Means n i ∧ Instruction.Readable (l.normal n) i := by
  cases l with
  | coordinates place q => exact readable_coordinates h
  | operations name ops => exact readable_operations h
  | products family ops => exact readable_products h
  | detector label offsets => exact readable_detector h
  | observable index offsets => exact readable_observable h
  | tick =>
      have hread : Instruction.read tickName.toList = .ok ⟨tickName, "", [], []⟩ := by
        decide
      exact ⟨_, .tick, Source.settled_tick, hread⟩
  | sheet name z => exact h.elim
  | polygonHeader sheet stroke fill => exact h.elim
  | polygonBody colour corners => exact readable_polygonBody h

end Emission

end StimOverlay
