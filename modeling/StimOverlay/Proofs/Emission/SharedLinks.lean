import StimOverlay.Proofs.Emission.SoundLines
import StimOverlay.Proofs.Source.AbbreviatedLines

/-! Shared links. What is written for a circuit without tags can be put into a link: the text in the link
is read line by line as the written one is, and parses to the same circuit. -/

namespace StimOverlay

open Build Numeric

namespace Build

/-- Lines that are built alike one by one leave the same state behind. -/
theorem foldlM_lineActs_congr {ctx : Context} {f g : List Char → List Char} {ls : List (List Char)}
    (h : ∀ l ∈ ls, ∀ (s : State) (number : Nat),
      s.buildLine ctx number (f l) = s.buildLine ctx number (g l)) (number : Nat) (s : State) :
    (lineActs number (ls.map f)).foldlM (State.perform ctx) s =
      (lineActs number (ls.map g)).foldlM (State.perform ctx) s := by
  induction ls generalizing number s with
  | nil => rfl
  | cons l ls ih =>
      have hl : s.perform ctx (.line number (f l)) = s.perform ctx (.line number (g l)) :=
        h l List.mem_cons_self s number
      have ih := ih (fun k hk => h k (List.mem_cons_of_mem _ hk)) (number + 1)
      rw [lineActs, lineActs] at ih ⊢
      simp only [List.map_cons, List.zipIdx_cons, List.foldlM_cons, hl]
      exact bind_congr ih

theorem finalState_congr (ctx : Context) {f g : List Char → List Char} {ls : List (List Char)}
    (hf : ∀ l ∈ ls, Source.Settled (f l)) (hg : ∀ l ∈ ls, Source.Settled (g l))
    (h : ∀ l ∈ ls, ∀ (s : State) (number : Nat),
      s.buildLine ctx number (f l) = s.buildLine ctx number (g l)) :
    finalState ctx (ls.map f) = finalState ctx (ls.map g) := by
  have hsettled {k : List Char → List Char} (hk : ∀ l ∈ ls, Source.Settled (k l)) :
      ∀ t ∈ ls.map k, Source.Settled t := by
    intro t ht
    obtain ⟨l, hl, rfl⟩ := List.mem_map.1 ht
    exact hk l hl
  have hruns : runLines ctx (ls.map f) = runLines ctx (ls.map g) := by
    rw [runLines_eq_foldlM, runLines_eq_foldlM, actsOf_ofLines (hsettled hf),
      actsOf_ofLines (hsettled hg), List.foldlM_append, List.foldlM_append,
      foldlM_lineActs_congr h, List.length_map, List.length_map]
  rw [finalState, finalState, hruns]

end Build

namespace ShareLink

open Source

variable {ls : List (List Char)}

theorem Shares.solid_compact {l : List Char} (h : Shares l) : Solid (compact l) where
  nonempty hnil := by
    have hcompacted := h.compacted
    rw [hnil] at hcompacted
    exact h.tight.solid.nonempty (hcompacted.symm.trans (by decide))
  plain c hc := by
    have hends : '\r' ∉ l := fun hmem => (h.solid.plain _ hmem).2.2.2 rfl
    rcases mem_compact hends hc with ⟨hc, -⟩ | hc | ⟨hline, -⟩
    · exact h.solid.plain c hc
    · have hall : ∀ c ∈ ['Q', 'D', 'T', 'O', 'I', '_'],
          c ≠ ';' ∧ c ≠ '#' ∧ c ≠ '\n' ∧ c ≠ '\r' := List.all_iff_forall_prop.1 (by decide)
      exact hall c hc
    · exact absurd rfl (h.solid.plain _ hline).2.2.1

/-- A text of lines that can be shared comes out of its link as the same lines without blanks. -/
theorem decode_lines (h : ∀ l ∈ ls, Shares l) :
    decode (fragment (['\n'].intercalate ls)) =
        .ok (String.ofList ([';'].intercalate (ls.map compact))) ∧
      normalize ([';'].intercalate (ls.map compact)) =
        ls.map (fun l => Text.tighten (normalizeLine l)) ∧
      normalize (['\n'].intercalate ls) = ls.map normalizeLine := by
  have hends : ∀ l ∈ ls, '\r' ∉ l := fun l hl hmem => ((h l hl).solid.plain _ hmem).2.2.2 rfl
  refine ⟨?_, ?_, normalize_intercalate (fun l hl => (h l hl).solid) (.inl rfl)⟩
  · exact (decode_behind [] List.not_mem_nil _).trans (by rw [compact_intercalate hends])
  · have hsolid : ∀ t ∈ ls.map compact, Solid t := by
      intro t ht
      obtain ⟨l, hl, rfl⟩ := List.mem_map.1 ht
      exact (h l hl).solid_compact
    rw [normalize_intercalate hsolid (.inr rfl), List.map_map]
    exact List.map_congr_left fun l hl => (h l hl).compacted

/-- The text in a link parses to what the text itself parses to. -/
theorem parse_lines (h : ∀ l ∈ ls, Shares l) :
    (parse (String.ofList ([';'].intercalate (ls.map compact)))).circuit =
        (parse (String.ofList (['\n'].intercalate ls))).circuit ∧
      (parse (String.ofList ([';'].intercalate (ls.map compact)))).diagnostics =
        (parse (String.ofList (['\n'].intercalate ls))).diagnostics := by
  obtain ⟨-, hcompact, hplain⟩ := decode_lines h
  have hstates := finalState_congr .standard (fun l hl => (h l hl).tight)
    (fun l hl => (h l hl).settled) fun l hl => (h l hl).built
  rw [parse, parse, parseWith, parseWith, String.toList_ofList, String.toList_ofList, hcompact,
    hplain, hstates]
  exact ⟨rfl, rfl⟩

end ShareLink

namespace Emission

open Source ShareLink

/-- Words of characters with `p`. -/
structure IsPhrase (p : Char → Bool) (words : List (List Char)) : Prop where
  nonempty : words ≠ []
  word : ∀ w ∈ words, Text.IsWord w
  chars : ∀ w ∈ words, ∀ c ∈ w, p c

namespace IsPhrase

variable {p : Char → Bool} {words : List (List Char)}

theorem of_subset {chars : List Char} (hchars : ∀ c ∈ chars, Text.isBlank c = false ∧ c ≠ ',' ∧ p c)
    (hne : words ≠ []) (hwords : ∀ w ∈ words, w ≠ [] ∧ ∀ c ∈ w, c ∈ chars) : IsPhrase p words where
  nonempty := hne
  word w hw := ⟨(hwords w hw).1, fun c hc =>
    have hplain := hchars c ((hwords w hw).2 c hc)
    ⟨hplain.1, hplain.2.1⟩⟩
  chars w hw c hc := (hchars c ((hwords w hw).2 c hc)).2.2

theorem chars_intercalate (h : IsPhrase p words) (hblank : p ' ') :
    ∀ c ∈ [' '].intercalate words, p c := by
  intro c hc
  rcases Text.mem_intercalate hc with hc | ⟨w, hw, hc⟩
  · rwa [List.mem_singleton.1 hc]
  · exact h.chars w hw c hc

theorem comma_notMem (h : IsPhrase p words) : ',' ∉ [' '].intercalate words := by
  intro hc
  rcases Text.mem_intercalate hc with hc | ⟨w, hw, hc⟩
  · exact absurd hc (by decide)
  · exact ((h.word w hw).2 _ hc).2 rfl

theorem last (h : IsPhrase p words) :
    ∃ c ∈ ([' '].intercalate words).getLast?, Text.isBlank c = false := by
  obtain ⟨w, rest, rfl⟩ := List.exists_cons_of_ne_nil h.nonempty
  have hne : [' '].intercalate (w :: rest) ≠ [] := by
    rw [Text.intercalate_cons]
    simp [(h.word w List.mem_cons_self).1]
  have hlast := List.getLast?_eq_some_getLast hne
  exact ⟨_, hlast, (Text.intercalate_ends h.word).2 _ hlast⟩

end IsPhrase

/-- What stands in the targets behind arguments. -/
def isBehindCall (c : Char) : Bool := isCalled c && c != ')'

variable {n : Numbering} {p : Char → Bool}

theorem phrase_numbers (hp : ∀ c ∈ digitChars, p c) {qubits : List QubitId} (hne : qubits ≠ []) :
    IsPhrase p (qubits.map fun q => Nat.toDigits 10 (n.number q)) := by
  have hplain : ∀ c ∈ digitChars, Text.isBlank c = false ∧ c ≠ ',' :=
    List.all_iff_forall_prop.1 (by decide)
  refine .of_subset (fun c hc => ⟨(hplain c hc).1, (hplain c hc).2, hp c hc⟩) (by simpa using hne) ?_
  intro w hw
  obtain ⟨q, -, rfl⟩ := List.mem_map.1 hw
  exact ⟨by simp, fun c hc => Instruction.digitChars_of_mem hc⟩

theorem phrase_products (hp : ∀ c ∈ ['*', 'X', 'Y', 'Z'] ++ digitChars, p c) {family : String}
    (hfamily : family ∈ Gate.productFamilies) {ops : List Operation} (hne : ops ≠ [])
    (hops : ∀ op ∈ ops, op.targets ≠ [] ∧ ∃ bases, bases ≠ [] ∧ op.gate = .product family bases) :
    IsPhrase p (ops.map fun op => (productText n op).toList) := by
  have hplain : ∀ c ∈ ['*', 'X', 'Y', 'Z'] ++ digitChars, Text.isBlank c = false ∧ c ≠ ',' :=
    List.all_iff_forall_prop.1 (by decide)
  refine .of_subset (fun c hc => ⟨(hplain c hc).1, (hplain c hc).2, hp c hc⟩) (by simpa using hne) ?_
  intro w hw
  obtain ⟨op, hop, rfl⟩ := List.mem_map.1 hw
  obtain ⟨htargets, bases, hbases, hgate⟩ := hops op hop
  rw [toList_productText hfamily hgate, Instruction.productChars]
  constructor
  · have hfactors : renumberedFactors n bases op.targets ≠ [] := by
      simp [renumberedFactors, List.zip_eq_nil_iff, hbases, htargets]
    obtain ⟨f, rest, heq⟩ := List.exists_cons_of_ne_nil hfactors
    simp [heq, Text.intercalate_cons]
  · intro c hc
    rcases Text.mem_intercalate hc with hc | ⟨w, hw, hc⟩
    · exact List.mem_append_left _ (List.mem_append_left ['X', 'Y', 'Z'] hc)
    · obtain ⟨f, -, rfl⟩ := List.mem_map.1 hw
      rcases List.mem_cons.1 hc with rfl | hc
      · cases f.1 <;> decide
      · exact List.mem_append_right _ (Instruction.digitChars_of_mem hc)

theorem phrase_records {offsets : List Int} (hne : offsets ≠ []) :
    IsPhrase isBehindCall (offsets.map fun k => (recordText k).toList) := by
  have hplain : ∀ c ∈ ['r', 'e', 'c', '[', '-', ']'] ++ digitChars,
      Text.isBlank c = false ∧ c ≠ ',' ∧ isBehindCall c := List.all_iff_forall_prop.1 (by decide)
  refine .of_subset hplain (by simpa using hne) ?_
  intro w hw
  obtain ⟨k, -, rfl⟩ := List.mem_map.1 hw
  obtain ⟨sign, digits, htext, hsign⟩ : ∃ (sign : List Char) (digits : Nat),
      (recordText k).toList = "rec[".toList ++ (sign ++ Nat.toDigits 10 digits) ++ [']'] ∧
        (sign = [] ∨ sign = ['-']) := by
    cases k with
    | ofNat k =>
        have htext : recordText (Int.ofNat k) = "rec[" ++ toString k ++ "]" := rfl
        exact ⟨[], k, by rw [htext]; simp, .inl rfl⟩
    | negSucc k =>
        have htext : recordText (Int.negSucc k) = "rec[" ++ ("-" ++ toString (k + 1)) ++ "]" := rfl
        exact ⟨['-'], k + 1, by rw [htext]; simp, .inr rfl⟩
  rw [htext]
  refine ⟨by simp, fun c hc => ?_⟩
  simp only [List.mem_append] at hc
  rcases hc with (hc | hc | hc) | hc
  · exact List.mem_append_left _ (List.mem_append_left ['-', ']'] hc)
  · refine List.mem_append_left _ ?_
    rcases hsign with rfl | rfl
    · cases hc
    · rw [List.mem_singleton.1 hc]
      decide
  · exact List.mem_append_right _ (Instruction.digitChars_of_mem hc)
  · rw [List.mem_singleton.1 hc]
    decide

theorem chars_inside {texts : List (List Char)} (h : ∀ t ∈ texts, ∀ c ∈ t, c ∈ numberChars) :
    ∀ c ∈ [',', ' '].intercalate texts, isCalled c ∧ c ≠ ')' := by
  intro c hc
  rcases Text.mem_intercalate hc with hc | ⟨t, ht, hc⟩
  · have hall : ∀ c ∈ [',', ' '], isCalled c ∧ c ≠ ')' := List.all_iff_forall_prop.1 (by decide)
    exact hall c hc
  · have hall : ∀ c ∈ numberChars, isCalled c ∧ c ≠ ')' := List.all_iff_forall_prop.1 (by decide)
    exact hall c (h t ht c hc)

/-- Numbers between parentheses, and words behind them. -/
theorem call_of_phrase {name : String} (hname : name ∈ writtenNames) {texts words : List (List Char)}
    (htexts : ∀ t ∈ texts, ∀ c ∈ t, c ∈ numberChars) (hwords : IsPhrase isBehindCall words)
    (htarget : name = coordinatesName → ∀ ts,
      Instruction.readTargets (Text.trim ([' '].intercalate words)) = .ok ts →
        ∃ q inverted, ts = [.qubit q inverted]) :
    Call name ([',', ' '].intercalate texts) ([' '].intercalate words) where
  known := hname
  chars c hc := by
    rcases List.mem_append.1 hc with hc | hc
    · exact chars_inside htexts c hc
    · simpa [isBehindCall] using hwords.chars_intercalate (by decide) c hc
  comma := hwords.comma_notMem
  last := hwords.last
  target := htarget

/-- A circuit whose operations and marks carry no tags; detectors and observables may. -/
def Untagged (c : Circuit) : Prop := ∀ op ∈ c.operationsAndMarkers, IsWritten op → op.tag = ""

theorem headName_mem_writtenNames {op : Operation} (h : Context.standard.Knows op.gate) :
    op.headName ∈ writtenNames ∧ op.headName ≠ coordinatesName := by
  rcases h.cases with hmem | ⟨family, hfamily, bases, -, hgate⟩
  · rw [headName_of_mem_standard hmem]
    exact ⟨List.mem_append_right _ (List.mem_map_of_mem hmem), (gate_facts _ hmem).2.1⟩
  · rw [headName_product hfamily hgate]
    exact ⟨List.mem_append_left _ (List.mem_cons_of_mem _ hfamily), (family_facts _ hfamily).2.1⟩

/-- Targets behind a heading, with or without arguments in it. -/
theorem written_heading {op : Operation} (hknown : Context.standard.Knows op.gate)
    (htag : op.tag = "") {words : List (List Char)}
    (hgate : op.gate ∈ Gate.standard → IsPhrase isListed words)
    (hproduct : op.headName ∈ Gate.productFamilies → IsPhrase isFactor words)
    (hcall : IsPhrase isBehindCall words) :
    Written (op.heading.toList ++ ' ' :: [' '].intercalate words) := by
  by_cases hargs : op.args = []
  · rw [heading_of_bare htag hargs]
    rcases hknown.cases with hmem | ⟨family, hfamily, bases, -, hproductGate⟩
    · rw [headName_of_mem_standard hmem]
      exact .gate hmem ((hgate hmem).chars_intercalate (by decide)) (hgate hmem).last
    · have hfamily : op.headName ∈ Gate.productFamilies :=
        headName_product hfamily hproductGate ▸ hfamily
      exact .product hfamily ((hproduct hfamily).chars_intercalate (by decide))
        (hproduct hfamily).last
  · obtain ⟨hname, hcoordinates⟩ := headName_mem_writtenNames hknown
    have hheading : op.heading.toList = op.headName.toList ++
        '(' :: ([',', ' '].intercalate (op.args.map (·.text.toList)) ++ [')']) := by
      have hsome : op.args.isEmpty = false := by simpa using hargs
      rw [Operation.heading, htag, hsome]
      simp [Operation.headName, String.toList_intercalate, List.map_map, Function.comp_def]
    have htexts : ∀ t ∈ op.args.map (·.text.toList), ∀ c ∈ t, c ∈ numberChars := by
      intro t ht c hc
      obtain ⟨x, -, rfl⟩ := List.mem_map.1 ht
      exact Binary.mem_numberChars hc
    have hline := Written.call (call_of_phrase hname htexts hcall fun h => absurd h hcoordinates)
    rw [hheading]
    simpa using hline

/-- Lines of a group, written without tags. -/
theorem written_groupLines {heading : String} {ops : List Operation}
    (hops : ∀ op ∈ ops, WellBuilt .standard op ∧ op.tag = "" ∧ op.heading = heading) {line : Line}
    (hline : line ∈ groupLines heading ops) : Written (line.text n).toList := by
  have hoperations {some : List Operation} (hsub : ∀ op ∈ some, op ∈ ops) (hne : some ≠ []) :
      Written ((Line.operations heading some).text n).toList := by
    obtain ⟨op, rest, heq⟩ := List.exists_cons_of_ne_nil hne
    obtain ⟨hbuilt, htag, hheading⟩ := hops op (hsub op (heq ▸ List.mem_cons_self))
    have htargets : some.flatMap (·.targets) ≠ [] := fun hnil =>
      hbuilt.targets_ne_nil (List.flatMap_eq_nil_iff.1 hnil op (heq ▸ List.mem_cons_self))
    have htext : ((Line.operations heading some).text n).toList = op.heading.toList ++
        ' ' :: [' '].intercalate ((some.flatMap (·.targets)).map fun q =>
          Nat.toDigits 10 (n.number q)) := by
      have htext : (Line.operations heading some).text n =
        heading ++ " " ++ n.text (some.flatMap (·.targets)) := rfl
      rw [htext, hheading, String.toList_append, String.toList_append, toList_numbers]
      simp
    rw [htext]
    exact written_heading hbuilt.known htag
      (fun _ => phrase_numbers (List.all_eq_true.1 (by decide)) htargets)
      (fun _ => phrase_numbers (List.all_eq_true.1 (by decide)) htargets)
      (phrase_numbers (List.all_eq_true.1 (by decide)) htargets)
  cases ops with
  | nil => cases hline
  | cons first rest =>
      obtain ⟨hbuilt, htag, hheading⟩ := hops first List.mem_cons_self
      rw [groupLines] at hline
      split_ifs at hline with hreference hproduct hfusible
      · cases hline
      · rw [List.mem_singleton.1 hline]
        rcases hbuilt.known.cases with hmem | ⟨family, hfamily, bases, hne, hgate⟩
        · rw [Gate.bases?_of_mem_standard hmem] at hproduct
          cases hproduct
        have hproducts : ∀ op ∈ first :: rest, op.targets ≠ [] ∧
            ∃ bases, bases ≠ [] ∧ op.gate = .product family bases := by
          intro op hop
          obtain ⟨hbuiltOp, -, hheadingOp⟩ := hops op hop
          have hname := Operation.headName_of_heading (told_of_known hbuiltOp.known).plain
            (told_of_known hbuilt.known).plain (hheadingOp.trans hheading.symm)
          exact ⟨hbuiltOp.targets_ne_nil, product_of_headName hfamily hbuiltOp.known
            (hname.trans (headName_product hfamily hgate))⟩
        have htext : ((Line.products heading (first :: rest)).text n).toList =
            first.heading.toList ++
              ' ' :: [' '].intercalate ((first :: rest).map fun op => (productText n op).toList) := by
          have htext : (Line.products heading (first :: rest)).text n =
            heading ++ " " ++ String.intercalate " " ((first :: rest).map (productText n)) := rfl
          rw [htext, hheading, String.toList_append, String.toList_append,
            String.toList_intercalate, List.map_map]
          simp [Function.comp_def]
        rw [htext]
        refine written_heading hbuilt.known htag (fun hmem => ?_) (fun _ => ?_) ?_
        · rw [Gate.bases?_of_mem_standard hmem] at hproduct
          cases hproduct
        · exact phrase_products (List.all_eq_true.1 (by decide)) hfamily (List.cons_ne_nil _ _)
            hproducts
        · exact phrase_products (List.all_eq_true.1 (by decide)) hfamily (List.cons_ne_nil _ _)
            hproducts
      · rw [List.mem_singleton.1 hline]
        exact hoperations (fun op hop => hop) (List.cons_ne_nil _ _)
      · obtain ⟨op, hop, rfl⟩ := List.mem_map.1 hline
        exact hoperations (by simpa using hop) (List.cons_ne_nil _ _)

theorem written_coordinates {place : Point} {q : QubitId} (hq : n.number q ≤ maxQubitId) :
    Written ((Line.coordinates place q).text n).toList := by
  let digits : List Char := Nat.toDigits 10 (n.number q)
  have htext : ((Line.coordinates place q).text n).toList = coordinatesName.toList ++
      '(' :: ([',', ' '].intercalate [place.place.x.text.toList, place.place.y.text.toList] ++
        ')' :: ' ' :: [' '].intercalate [digits]) := by
    have htext : (Line.coordinates place q).text n =
      coordinatesName ++ "(" ++ place.text ++ ") " ++ toString (n.number q) := rfl
    rw [htext]
    simp [toList_point, digits]
  have htexts : ∀ t ∈ [place.place.x.text.toList, place.place.y.text.toList],
      ∀ c ∈ t, c ∈ numberChars := by
    intro t ht c hc
    rcases List.mem_pair.1 ht with rfl | rfl
    · exact Binary.mem_numberChars hc
    · exact Binary.mem_numberChars hc
  have hwords : IsPhrase isBehindCall ([q].map fun q => Nat.toDigits 10 (n.number q)) :=
    phrase_numbers (List.all_eq_true.1 (by decide)) (List.cons_ne_nil _ _)
  rw [htext]
  refine .call (call_of_phrase List.mem_cons_self htexts hwords fun _ ts hts => ?_)
  have htrim : Text.trim ([' '].intercalate [digits]) = digits := by
    rw [List.intercalate_singleton]
    exact trim_eq_self
      (fun c hc => ((hwords.word _ List.mem_cons_self).2 c (List.mem_of_head? hc)).1)
      fun c hc => ((hwords.word _ List.mem_cons_self).2 c (List.mem_of_getLast? hc)).1
  have hread := Instruction.readTargets_of_readsAs (Instruction.readsAs_qubit hq)
    (Instruction.spaced_of_forall_ne (by simp))
  rw [htrim, hread] at hts
  cases hts
  exact ⟨_, _, rfl⟩

theorem written_detector {label : Label} {offsets : List Int} {place : Point}
    (hplace : label.place = place.text) (hne : offsets ≠ []) :
    Written ((Line.detector label offsets).text n).toList := by
  let texts : List (List Char) := [place.place.x.text.toList, place.place.y.text.toList,
    Nat.toDigits 10 label.time]
  have htext : ((Line.detector label offsets).text n).toList = detectorName.toList ++
      '(' :: ([',', ' '].intercalate texts ++
        ')' :: ' ' :: [' '].intercalate (offsets.map fun k => (recordText k).toList)) := by
    have htext : (Line.detector label offsets).text n =
      detectorName ++ "(" ++ label.place ++ ", " ++ toString label.time ++ ")" ++ " " ++
        String.intercalate " " (offsets.map recordText) := rfl
    rw [htext, hplace]
    simp [toList_point, texts, String.toList_intercalate, List.map_map, Function.comp_def]
  have htexts : ∀ t ∈ texts, ∀ c ∈ t, c ∈ numberChars := by
    intro t ht c hc
    simp only [texts, List.mem_cons, List.not_mem_nil, or_false] at ht
    rcases ht with rfl | rfl | rfl
    · exact Binary.mem_numberChars hc
    · exact Binary.mem_numberChars hc
    · exact List.mem_append_right _ (Instruction.digitChars_of_mem hc)
  rw [htext]
  exact .call (call_of_phrase (by decide) htexts (phrase_records hne)
    fun h => absurd h (by decide))

theorem written_observable {index : Nat} {offsets : List Int} (hne : offsets ≠ []) :
    Written ((Line.observable index offsets).text n).toList := by
  have htext : ((Line.observable index offsets).text n).toList = observableName.toList ++
      '(' :: ([',', ' '].intercalate [Nat.toDigits 10 index] ++
        ')' :: ' ' :: [' '].intercalate (offsets.map fun k => (recordText k).toList)) := by
    have htext : (Line.observable index offsets).text n =
      observableName ++ "(" ++ toString index ++ ")" ++
        String.join (offsets.map fun k => " " ++ recordText k) := rfl
    obtain ⟨o, rest, rfl⟩ := List.exists_cons_of_ne_nil hne
    have hjoin : (String.join ((o :: rest).map fun k => " " ++ recordText k)).toList =
        ' ' :: [' '].intercalate ((o :: rest).map fun o => (recordText o).toList) := by
      rw [String.toList_join, List.map_cons, List.map_cons, Text.intercalate_cons]
      simp [List.flatMap_map]
    rw [htext, String.toList_append, hjoin]
    simp
  have htexts : ∀ t ∈ [Nat.toDigits 10 index], ∀ c ∈ t, c ∈ numberChars := by
    intro t ht c hc
    rw [List.mem_singleton.1 ht] at hc
    exact List.mem_append_right _ (Instruction.digitChars_of_mem hc)
  rw [htext]
  exact .call (call_of_phrase (by decide) htexts (phrase_records hne)
    fun h => absurd h (by decide))

end Emission

namespace Build

open Emission ShareLink

variable {text : String}

/-- Everything that refers to the record refers to something. -/
theorem offsets_ne_nil {line : Line} (hl : line ∈ lines (parse text).circuit .plain)
    {r : Option Nat × List Int} (hr : line.reference? = some r) : r.2 ≠ [] := by
  obtain ⟨m, hm, -, hoffsets⟩ := exists_mention hl hr 0 []
  obtain ⟨entry, -, hfit⟩ := exists_fit hm
  obtain ⟨last, hlast, -⟩ := hfit.due.last
  rw [← hoffsets, hfit.offsets]
  intro hnil
  rw [List.map_eq_nil_iff.1 hnil] at hlast
  cases hlast

theorem written_of_mem_lines (h : Untagged (parse text).circuit) {line : Line}
    (hl : line ∈ lines (parse text).circuit .plain) :
    Written (line.text (numberingOf (parse text).circuit .plain)).toList := by
  cases plainLine_of_mem hl with
  | coordinates hactive => exact written_coordinates (number_parse_le hactive)
  | detector hplace => exact written_detector hplace (offsets_ne_nil hl rfl)
  | observable => exact written_observable (offsets_ne_nil hl rfl)
  | tick => exact .tick
  | group hmem hbuilt hwritten hinside hheaded =>
      exact written_groupLines (fun op hop => ⟨hbuilt op hop, h op (hinside op hop) (hwritten op hop),
        hheaded op hop⟩) hmem

/-- What is written for a circuit without tags comes out of a link as the same lines, apart from the
blanks behind commas and closing parentheses: each is read as before or refused as before, and the
whole parses to the same circuit with the same diagnostics. -/
theorem shared_stimText (text : String) (h : Untagged (parse text).circuit) :
    let emitted := (parse text).circuit.stimText
    ∃ link, decode (fragment emitted.toList) = .ok link ∧
      Source.normalize link.toList = (Source.normalize emitted.toList).map Text.tighten ∧
      (∀ line ∈ Source.normalize emitted.toList,
        Instruction.read (Text.tighten line) = Instruction.read line) ∧
      (parse link).circuit = (parse emitted).circuit ∧
      (parse link).diagnostics = (parse emitted).diagnostics := by
  intro emitted
  let n := numberingOf (parse text).circuit .plain
  let ls : List (List Char) := (lines (parse text).circuit .plain).map fun l => (l.text n).toList
  have hshares : ∀ l ∈ ls, Shares l := by
    intro l hl
    obtain ⟨line, hline, rfl⟩ := List.mem_map.1 hl
    exact (written_of_mem_lines h hline).shares
  have hemitted : emitted.toList = ['\n'].intercalate ls := by
    have htext : emitted = String.intercalate "\n"
      ((lines (parse text).circuit .plain).map (Line.text n)) := rfl
    rw [htext, String.toList_intercalate, List.map_map]
    rfl
  obtain ⟨hdecode, hcompact, hplain⟩ := decode_lines hshares
  obtain ⟨hcircuit, hdiagnostics⟩ := parse_lines hshares
  rw [← hemitted] at hdecode hplain hcircuit hdiagnostics
  rw [String.ofList_toList] at hcircuit hdiagnostics
  rw [hplain]
  refine ⟨_, hdecode, ?_, fun line hline => ?_, hcircuit, hdiagnostics⟩
  · rw [String.toList_ofList, hcompact]
    exact List.map_map.symm
  · obtain ⟨l, hl, rfl⟩ := List.mem_map.1 hline
    exact (hshares l hl).read

/-- A name that is torn apart by its arguments, so that its line is refused on both sides of the
link, in front of a detector. -/
theorem shared_torn_name :
    let circuit := (parse "S_DAG (0.5) 0\nM 1\nDETECTOR rec[-1]").circuit
    Untagged circuit ∧ ∃ link, decode (fragment circuit.stimText.toList) = .ok link ∧
      Source.normalize link.toList =
        (Source.normalize circuit.stimText.toList).map Text.tighten ∧
      (∀ line ∈ Source.normalize circuit.stimText.toList,
        Instruction.read (Text.tighten line) = Instruction.read line) ∧
      (parse link).circuit = (parse circuit.stimText).circuit ∧
      (parse link).diagnostics = (parse circuit.stimText).diagnostics := by
  intro circuit
  have huntagged : Untagged circuit := by
    have hall : circuit.operationsAndMarkers.all (·.tag == "") := by decide +kernel
    intro op hop _
    exact eq_of_beq (List.all_eq_true.1 hall op hop)
  exact ⟨huntagged, shared_stimText _ huntagged⟩

end Build

end StimOverlay
