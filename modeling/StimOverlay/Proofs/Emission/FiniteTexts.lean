import StimOverlay.Proofs.Emission.DetectorLabels
import StimOverlay.Proofs.Emission.RegroupedActions
import StimOverlay.Proofs.Emission.WritableSheets
import StimOverlay.Proofs.Layer.LayerOrigins
import StimOverlay.Proofs.Numeric.NarrowedNumerals

/-! Finite texts. Arguments are read in double precision and kept in single precision. Those that are in
the range of single precision stay finite wherever they end up: as arguments of operations and markers, as
colours and as coordinates. Everything that is written for them is read again. -/

namespace StimOverlay

open Build Numeric

namespace Build

open Circuit Emission

/-- Every argument on a line that is run is in the range of single precision. -/
def ArgumentsFit (ctx : Context) (text : String) : Prop :=
  ∀ a ∈ course ctx (Source.normalize text.toList), ∀ i, Instruction.read (Text.trim a.text) = .ok i →
    ∀ x ∈ i.args, x.Fits .binary32

/-- Fewer lines for detectors are run than there are numbers for detectors. -/
def FewDetectors (ctx : Context) (text : String) : Prop :=
  (course ctx (Source.normalize text.toList)).countP (Act.isFor detectorName) < 2 ^ 64

variable {ctx : Context} {text : String}

theorem finite_convert {x : Binary64} (hfinite : x.isFinite) (hfits : x.Fits .binary32) :
    (x.convert .binary32).isFinite :=
  (Binary.isFinite_convert_iff Format.ample_binary32).2 ⟨hfinite, hfits⟩

theorem args_of_instruction? (h : ArgumentsFit ctx text) {a : Act}
    (ha : a ∈ course ctx (Source.normalize text.toList)) {line : Nat} {i : Instruction}
    (hi : a.instruction? = some (line, i)) : ∀ x ∈ i.args, x.isFinite ∧ x.Fits .binary32 := by
  obtain ⟨source, rfl, hread⟩ := read_of_instruction? hi
  exact fun x hx => ⟨finite_of_read hread x hx, h _ ha i hread x hx⟩

theorem finite_keptArgs {i : Instruction} (h : ∀ x ∈ i.args, x.isFinite ∧ x.Fits .binary32)
    (measures : Bool) : ∀ x ∈ keptArgs measures i, x.isFinite := by
  rw [keptArgs]
  split_ifs
  · exact fun x hx => absurd hx List.not_mem_nil
  · intro x hx
    obtain ⟨y, hy, rfl⟩ := List.mem_map.1 hx
    exact finite_convert (h y hy).1 (h y hy).2

theorem finite_observableIndex? {i : Instruction} (h : ∀ x ∈ i.args, x.isFinite ∧ x.Fits .binary32)
    {v : Binary64} (hv : observableIndex? i = some v) : (v.convert .binary32).isFinite := by
  unfold observableIndex? at hv
  cases hhead : i.args.head? with
  | none =>
      simp only [hhead, Option.some.injEq] at hv
      rw [← hv, convert_zero]
      rfl
  | some x =>
      have hmem := List.mem_of_head? hhead
      simp only [hhead] at hv
      split_ifs at hv
      cases hv
      exact finite_convert (h v hmem).1 (h v hmem).2

theorem finite_number {n : Nat} (hn : n < 2 ^ 64) : (.ofNat .binary32 n : Binary32).isFinite := by
  refine (Binary.isFinite_ofFraction_iff Format.ample_binary32 Nat.one_pos false).2 ?_
  rw [Nat.cast_one, div_one]
  calc (n : Rat) < 2 ^ 64 := by exact_mod_cast hn
    _ ≤ 2 ^ 127 := by norm_num
    _ ≤ Format.binary32.overflow := Format.pow_le_overflow .binary32

/-- Whatever a move of the run puts into layers has finite arguments. -/
theorem finite_of_puts (h : ArgumentsFit ctx text) {m : Move}
    (hm : m ∈ moves ctx (course ctx (Source.normalize text.toList))) {n : Nat} (hn : n < 2 ^ 64)
    {op : Operation} (hop : m.Puts ctx n op) : ∀ x ∈ op.args, x.isFinite := by
  obtain ⟨a, ha, k, hk⟩ := mem_movesFrom hm
  obtain ⟨line, i, hi, hmove⟩ := instruction_of_mem_moves hk
  have hargs := args_of_instruction? h ha hi
  obtain ⟨-, rfl⟩ | ⟨-, hmarker⟩ | ⟨-, ⟨op', rfl, hplaced⟩ | ⟨err, q, -, -, rfl⟩⟩ :=
    instructionMoves_cases hmove
  · cases hop
  · obtain ⟨numbers, -, ⟨-, rfl⟩ | ⟨v, hv, rfl⟩⟩ := detector_or_observable_of_markerMoves hmarker
    · cases hop
      exact List.forall_mem_singleton.2 (finite_number hn)
    · cases hop
      exact List.forall_mem_singleton.2 (finite_observableIndex? hargs hv)
  · cases hop
    obtain ⟨measures, heq⟩ := hplaced.args
    exact heq ▸ finite_keptArgs hargs measures
  · cases hop
    exact fun x hx => absurd hx List.not_mem_nil

theorem finite_args (h : ArgumentsFit ctx text) (hfew : FewDetectors ctx text) :
    ∀ l ∈ (parseWith ctx text).circuit.layers, l.All fun op => ∀ x ∈ op.args, x.isFinite :=
  all_parseWith ctx text fun _ hm _ hn _ hop => finite_of_puts h hm
    (hn.trans_lt ((length_detectors_le _ _).trans_lt hfew)) hop

theorem IsPolygon.exists_args {source : List Char} {body : PolygonBody} (h : IsPolygon source body) :
    ∃ i, Instruction.read (Text.trim source) = .ok i ∧
      body.colour.components = i.args.map (Binary.convert .binary32) := by
  obtain ⟨i, hread, -, hbuild⟩ := h
  have hbuild := hbuild {} 0
  refine ⟨i, hread, ?_⟩
  unfold State.buildPolygon at hbuild
  split at hbuild
  · rename_i hargs _
    rw [PolygonBody.ofCorners?] at hbuild
    split_ifs at hbuild
    · cases hbuild
    · cases hbuild
      exact hargs.symm
  · cases hbuild

theorem finite_colours (h : ArgumentsFit ctx text) {l : Layer}
    (hl : l ∈ (parseWith ctx text).circuit.layers) {f : Figure} (hf : f ∈ figuresOf l) :
    ∀ v ∈ f.body.colour.components, v.isFinite := by
  obtain ⟨o, hdraws, ho⟩ := exists_draws_of_figure ctx text hl hf
  obtain ⟨a, ha, hpolygon⟩ := isPolygon_of_draws hdraws f ho
  obtain ⟨i, hread, hcolour⟩ := hpolygon.exists_args
  intro v hv
  rw [hcolour] at hv
  obtain ⟨x, hx, rfl⟩ := List.mem_map.1 hv
  exact finite_convert (finite_of_read hread x hx) (h a ha i hread x hx)

/-- A point whose coordinates are finite and in the range of single precision. -/
def Moderate (p : Point) : Prop := p.x.Within 128 ∧ p.y.Within 128

theorem within_of_fits {x : Binary64} (hfinite : x.isFinite) (hfits : x.Fits .binary32) :
    x.Within 128 := by
  refine ⟨hfinite, (hfits.trans (Format.overflow_lt_pow _)).le.trans_eq ?_⟩
  rw [← zpow_natCast]
  rfl

theorem within_ofNat {n : Nat} (hn : n < 2 ^ 53) : (.ofNat .binary64 n : Binary64).Within 128 := by
  obtain ⟨hfinite, hvalue⟩ := Binary.toRat_ofNat Format.ample_binary64 hn
  refine ⟨hfinite, ?_⟩
  rw [hvalue, Nat.abs_cast]
  calc (n : Rat) ≤ 2 ^ 53 := by exact_mod_cast hn.le
    _ ≤ 2 ^ 128 := by norm_num

theorem within_zero : (.zero : Binary64).Within 128 :=
  ⟨rfl, by rw [Binary.zero, Binary.toRat_finite]; norm_num⟩

theorem moderate_axisPlace {x : Nat} (hx : x < 2 ^ 53) : Moderate (axisPlace x) :=
  ⟨within_ofNat hx, within_zero⟩

/-- The coordinates that an act declares are arguments or zero. -/
theorem moderate_declaration? (h : ArgumentsFit ctx text) {a : Act}
    (ha : a ∈ course ctx (Source.normalize text.toList)) {e : QubitId × Point}
    (he : a.declaration? = some e) : Moderate e.2 := by
  obtain ⟨⟨line, i⟩, hi, hdeclared⟩ := Option.bind_eq_some_iff.1 he
  have hargs := args_of_instruction? h ha hi
  have hcoordinate (k : Nat) : (i.args[k]?.getD .zero).Within 128 := by
    cases hk : i.args[k]? with
    | none => exact within_zero
    | some x =>
        have hmem := List.mem_of_getElem? hk
        exact within_of_fits (hargs x hmem).1 (hargs x hmem).2
  unfold declaration? at hdeclared
  split at hdeclared
  · split_ifs at hdeclared
    cases hdeclared
    exact ⟨hcoordinate 0, hcoordinate 1⟩
  · cases hdeclared

/-- Declared coordinates are arguments of the run. -/
theorem moderate_draft (h : ArgumentsFit ctx text) {q : QubitId} {p : Point}
    (hp : (draft ctx text).coords[q]? = some p) : Moderate p := by
  rw [draft, finalState_eq_stateAfter] at hp
  refine stateAfter_induction (P := fun acts s =>
    (∀ a ∈ acts, a ∈ course ctx (Source.normalize text.toList)) →
      ∀ (q : QubitId) (p : Point), s.circuit.coords[q]? = some p → Moderate p)
    (fun _ q p hp => by simp [Circuit.empty] at hp) (fun acts a s ih hacts q p hp => ?_)
    (course ctx (Source.normalize text.toList)) (fun a ha => ha) q p hp
  obtain ⟨hbefore, ha⟩ := List.forall_mem_append.1 hacts
  rw [coords_after] at hp
  cases haccepted : s.accepted? a with
  | none =>
      rw [haccepted] at hp
      exact ih hbefore q p hp
  | some e =>
      obtain ⟨e', hdeclared, haccept⟩ := Option.bind_eq_some_iff.1 haccepted
      obtain ⟨-, -, rfl⟩ := Option.map_eq_some_iff.1 haccept
      rw [haccepted, enter, getElem?_insert_of_nat] at hp
      split_ifs at hp
      · cases hp
        exact moderate_declaration? h (ha a (List.mem_singleton_self a)) hdeclared
      · exact ih hbefore q p hp

/-- Whatever coordinates a parsed circuit has, declared or made up, are moderate. -/
theorem moderate_coordsOf (h : ArgumentsFit ctx text) (q : QubitId) :
    Moderate ((parseWith ctx text).circuit.coordsOf q) := by
  have hdrafted := drafted_draft ctx text
  rw [coordsOf]
  cases hp : (parseWith ctx text).circuit.packed[q]? with
  | none => exact ⟨within_zero, within_zero⟩
  | some p =>
      have hmem : p ∈ (parseWith ctx text).circuit.coords.toList.map (·.2) := by
        rw [← (mirrored_parseWith ctx text).packed]
        exact Array.mem_toList_iff.2 (Array.mem_of_getElem? hp)
      obtain ⟨e, he, rfl⟩ := List.mem_map.1 hmem
      rw [(tables_parseWith ctx text).1, coords_complete] at he
      have hcompleted := toList_completedCoords he
      have hlt := lt_extent_of_completedCoords hcompleted
      have hnamed : e.1 ≤ maxQubitId :=
        Nat.le_of_lt_succ (Nat.lt_of_lt_of_le hlt (extent_le hdrafted))
      rcases completedCoords_cases hdrafted.situated hnamed hlt with
        ⟨p, hdeclared, hp⟩ | ⟨k, x, -, -, hx, -, hp⟩
      · cases hcompleted.symm.trans hp
        exact moderate_draft h hdeclared
      · rw [Option.getD_some, Option.some_inj.1 (hcompleted.symm.trans hp)]
        exact moderate_axisPlace hx

/-- Every label of a detector is made of finite numbers, at a time that there are numbers for. -/
theorem labelled_parseWith (h : ArgumentsFit ctx text) (d : Detail) :
    ∀ l ∈ lines (parseWith ctx text).circuit d, l.Labelled (maxSlot + 1) := by
  refine labelled_lines (Circuit.length_detectors_le _ _) fun e _ => ?_
  exact placeable_of_within (by decide) fun q _ => moderate_coordsOf h q

end Build

/-- The arguments of an operation as they are written, if it has any. -/
def Operation.argumentList? (op : Operation) : Option String :=
  if op.args.isEmpty then none else some (String.intercalate ", " (op.args.map Binary.text))

namespace Emission

open Operation

/-- The arguments of a line as they are written. -/
def Line.argumentList? : Line → Option String
  | .coordinates place _ => some place.text
  | .polygonBody colour _ => some colour.text
  | .operations _ ops => ops.head?.bind (·.argumentList?)
  | .products _ ops => ops.head?.bind (·.argumentList?)
  | .detector label _ => some s!"{label.place}, {label.time}"
  | .observable index _ => some (toString index)
  | _ => none

/-- A list of arguments that is read, as finite numbers. -/
def IsReadable (list : String) : Prop :=
  ∃ xs, Instruction.readArgs (Text.splitWhere (· == ',') list.toList) = .ok xs ∧ ∀ x ∈ xs, x.isFinite

theorem isReadable_of_numerals {list : String} {gap : List Char} (hgap : Instruction.IsGap gap)
    (texts : List (List Char)) (hlist : list.toList = (',' :: gap).intercalate texts)
    (h : ∀ t ∈ texts, ∃ x, Instruction.IsNumeral t x) : IsReadable list := by
  choose! value hvalue using h
  have hnumerals : ∀ p ∈ texts.map fun t => (t, value t), Instruction.IsNumeral p.1 p.2 :=
    List.forall_mem_map.2 hvalue
  have hread := Instruction.readArgs_intercalate hgap hnumerals
  rw [List.map_map, List.map_map] at hread
  rw [IsReadable, hlist]
  refine ⟨_, ?_, finite_of_readArgs hread⟩
  simpa [Function.comp_def] using hread

/-- What is written for a finite number in single precision is read in double precision. -/
theorem exists_isNumeral {v : Binary32} (hv : v.isFinite) :
    ∃ x, Instruction.IsNumeral v.text.toList x := by
  obtain ⟨x, hx⟩ := Binary.exists_readFinite?_text Format.ample_binary64 Format.overflow_binary32_lt hv
  exact ⟨x, isNumeral_component hv hx⟩

theorem isReadable_args {op : Operation} (h : ∀ x ∈ op.args, x.isFinite) {list : String}
    (hlist : op.argumentList? = some list) : IsReadable list := by
  rw [argumentList?] at hlist
  split_ifs at hlist
  cases hlist
  refine isReadable_of_numerals (.inr rfl) (op.args.map fun x => x.text.toList) ?_
    (List.forall_mem_map.2 fun x hx => exists_isNumeral (h x hx))
  rw [String.toList_intercalate, List.map_map]
  rfl

theorem isReadable_colour {colour : Colour} (h : ∀ v ∈ colour.components, v.isFinite) :
    IsReadable colour.text := by
  refine isReadable_of_numerals (.inl rfl) (colour.components.map fun v => v.text.toList) ?_
    (List.forall_mem_map.2 fun v hv => exists_isNumeral (h v hv))
  rw [Colour.text, String.toList_intercalate, List.map_map]
  rfl

/-- The coordinates of a point, with further numerals behind them. -/
theorem isReadable_point {place : Point} (hx : place.x.isFinite) (hy : place.y.isFinite) {list : String}
    (texts : List (List Char)) (h : ∀ t ∈ texts, ∃ x, Instruction.IsNumeral t x)
    (hlist : list.toList = [',', ' '].intercalate
      (place.place.x.text.toList :: place.place.y.text.toList :: texts)) : IsReadable list := by
  refine isReadable_of_numerals (.inr rfl) _ hlist ?_
  refine List.forall_mem_cons.2 ⟨⟨_, Instruction.isNumeral_text (Binary.isFinite_unsignedZero hx)⟩, ?_⟩
  exact List.forall_mem_cons.2 ⟨⟨_, Instruction.isNumeral_text (Binary.isFinite_unsignedZero hy)⟩, h⟩

theorem isReadable_label {label : Label} (hplace : IsPlace label.place) (htime : label.time ≤ 2 ^ 64) :
    IsReadable s!"{label.place}, {label.time}" := by
  obtain ⟨place, hx, hy, heq⟩ := hplace
  refine isReadable_point hx hy [Nat.toDigits 10 label.time] ?_ ?_
  · exact List.forall_mem_singleton.2 ⟨_, Instruction.isNumeral_toDigits htime⟩
  · have htext : s!"{label.place}, {label.time}" = label.place ++ ", " ++ toString label.time := rfl
    rw [htext, heq]
    simp [toList_point]

theorem isReadable_index {index : Nat} (hindex : index ≤ 2 ^ 64) : IsReadable (toString index) := by
  refine isReadable_of_numerals (.inl rfl) [Nat.toDigits 10 index] (by simp) ?_
  exact List.forall_mem_singleton.2 ⟨_, Instruction.isNumeral_toDigits hindex⟩

variable {c : Circuit} {d : Detail}

theorem coordinates_of_mem_lines {place : Point} {q : QubitId}
    (h : .coordinates place q ∈ lines c d) : place = c.coordsOf q := by
  rcases mem_lines h with h | h
  · obtain ⟨-, s, -, heq⟩ | ⟨q', -, heq⟩ := headerLines_cases h <;> cases heq
    rfl
  · rcases bodyLines_cases h with h | h | ⟨l, -, h⟩
    · exact h.elim
    · cases h
    · exact (ofLayer_layerLines h).elim

theorem exists_figure_of_mem_lines {colour : Colour} {corners : List QubitId}
    (h : .polygonBody colour corners ∈ lines c d) :
    ∃ l ∈ c.layers, ∃ f ∈ figuresOf l, f.body.colour = colour := by
  rcases mem_lines h with h | h
  · obtain ⟨-, s, -, heq⟩ | ⟨q, -, heq⟩ := headerLines_cases h <;> cases heq
  rcases bodyLines_cases h with h | h | ⟨l, hl, h⟩
  · exact h.elim
  · cases h
  obtain ⟨p, hp, heq | heq⟩ | ⟨heading, ops, -, -, heq | heq⟩ := layerLines_cases h <;> cases heq
  exact ⟨l, hl, _, List.mem_filterMap.2 ⟨.polygon p, hp, rfl⟩, rfl⟩

theorem index_lt_of_mem_lines {index : Nat} {offsets : List Int}
    (h : .observable index offsets ∈ lines c d) : index < indexModulus := by
  rcases mem_lines h with h | h
  · obtain ⟨-, s, -, heq⟩ | ⟨q, -, heq⟩ := headerLines_cases h <;> cases heq
  rcases bodyLines_origin h with ⟨p, h⟩ | ⟨p, hsubset, h⟩ | h | ⟨l, -, h⟩
  · obtain ⟨label, offsets', heq⟩ := eq_detector_of_labelDetectors h
    cases heq
  · obtain ⟨entry, hentry, heq⟩ := List.mem_map.1 h
    cases heq
    exact Circuit.observable_lt_indexModulus (hsubset (List.mem_of_mem_filter hentry))
  · cases h
  · exact (ofLayer_layerLines h).elim

theorem exists_heading_of_argumentList? {op : Operation} {list : String}
    (h : op.argumentList? = some list) : ∃ before, op.heading = before ++ ("(" ++ list ++ ")") := by
  rw [argumentList?] at h
  split_ifs at h with hargs
  cases h
  rw [heading, if_neg hargs]
  exact ⟨_, rfl⟩

/-- The arguments of a line stand in its text, between parentheses. -/
theorem exists_text_of_argumentList? {line : Line} (h : line ∈ lines c d) {list : String}
    (hlist : line.argumentList? = some list) (n : Numbering) :
    ∃ before after, line.text n = before ++ ("(" ++ list ++ ")") ++ after := by
  have hoperation {ops : List Operation} (hops : line.ops = ops)
      (hlist : ops.head?.bind (·.argumentList?) = some list) {heading : String}
      (hheading : line.heading? = some heading) : ∃ before, heading = before ++ ("(" ++ list ++ ")") := by
    obtain ⟨op, hop, hlist⟩ := Option.bind_eq_some_iff.1 hlist
    have hmem : op ∈ line.ops := hops ▸ List.mem_of_head? hop
    cases hheading.symm.trans (mem_lines_of_operation h hmem).2
    exact exists_heading_of_argumentList? hlist
  cases line with
  | sheet | polygonHeader | tick => cases hlist
  | coordinates place q =>
      cases hlist
      refine ⟨"QUBIT_COORDS", " " ++ toString (n.number q), ?_⟩
      have htext : (Line.coordinates place q).text n =
        "QUBIT_COORDS" ++ "(" ++ place.text ++ (")" ++ " ") ++ toString (n.number q) := rfl
      rw [htext]
      simp only [String.append_assoc]
  | polygonBody colour corners =>
      cases hlist
      refine ⟨"#!pragma POLYGON", " " ++ n.text corners, ?_⟩
      have htext : (Line.polygonBody colour corners).text n =
        "#!pragma POLYGON" ++ "(" ++ colour.text ++ (")" ++ " ") ++ n.text corners := rfl
      rw [htext]
      simp only [String.append_assoc]
  | operations heading ops =>
      obtain ⟨before, rfl⟩ := hoperation rfl hlist rfl
      exact ⟨before, " " ++ n.text (ops.flatMap (·.targets)), String.append_assoc ..⟩
  | products heading ops =>
      obtain ⟨before, rfl⟩ := hoperation rfl hlist rfl
      exact ⟨before, " " ++ String.intercalate " " (ops.map (productText n)), String.append_assoc ..⟩
  | detector label offsets =>
      cases hlist
      refine ⟨"DETECTOR", " " ++ String.intercalate " " (offsets.map recordText), ?_⟩
      have htext : (Line.detector label offsets).text n = "DETECTOR" ++ "(" ++ label.place ++ ", " ++
        toString label.time ++ ")" ++ " " ++ String.intercalate " " (offsets.map recordText) := rfl
      have hlabel : s!"{label.place}, {label.time}" = label.place ++ ", " ++ toString label.time := rfl
      rw [htext, hlabel]
      simp only [String.append_assoc]
  | observable index offsets =>
      cases hlist
      exact ⟨"OBSERVABLE_INCLUDE", String.join (offsets.map fun k => " " ++ recordText k), rfl⟩

end Emission

namespace Build

open Emission

/-- Arguments in the range of single precision leave only finite numbers in the circuit. Every list of
arguments that is written for the circuit stands between parentheses and is read as finite numbers. -/
theorem parseWith_finite (ctx : Context) (text : String) (h : ArgumentsFit ctx text)
    (hfew : FewDetectors ctx text) :
    let c := (parseWith ctx text).circuit
    (∀ l ∈ c.layers, ∀ op ∈ l.operationsAndMarkers, ∀ x ∈ op.args, x.isFinite) ∧
      (∀ l ∈ c.layers, ∀ f ∈ figuresOf l, ∀ x ∈ f.body.colour.components, x.isFinite) ∧
      ∀ d, ∀ line ∈ lines c d, ∀ list ∈ line.argumentList?, IsReadable list ∧
        ∃ before after, line.text (numberingOf c d) = before ++ ("(" ++ list ++ ")") ++ after := by
  intro c
  have hargs := finite_args h hfew
  have hcolours := fun l (hl : l ∈ c.layers) f (hf : f ∈ figuresOf l) => finite_colours h hl hf
  refine ⟨hargs, hcolours, fun d line hline list hlist =>
    ⟨?_, exists_text_of_argumentList? hline hlist _⟩⟩
  have hoperation {ops : List Operation} (hops : line.ops = ops)
      (hlist : ops.head?.bind (·.argumentList?) = some list) : IsReadable list := by
    obtain ⟨op, hop, hlist⟩ := Option.bind_eq_some_iff.1 hlist
    have hmem : op ∈ line.ops := hops ▸ List.mem_of_head? hop
    obtain ⟨⟨l, hl, hop⟩, -⟩ := mem_lines_of_operation hline hmem
    exact isReadable_args (hargs l hl op hop) hlist
  cases line with
  | sheet | polygonHeader | tick => cases hlist
  | coordinates place q =>
      cases hlist
      obtain ⟨hx, hy⟩ := moderate_coordsOf h q
      rw [coordinates_of_mem_lines hline]
      exact isReadable_point hx.1 hy.1 [] (fun t ht => absurd ht List.not_mem_nil)
        (toList_point _)
  | polygonBody colour corners =>
      cases hlist
      obtain ⟨l, hl, f, hf, rfl⟩ := exists_figure_of_mem_lines hline
      exact isReadable_colour (hcolours l hl f hf)
  | operations heading ops => exact hoperation rfl hlist
  | products heading ops => exact hoperation rfl hlist
  | detector label offsets =>
      cases hlist
      obtain ⟨hplace, htime⟩ := labelled_parseWith h d _ hline
      exact isReadable_label hplace (htime.le.trans (by decide))
  | observable index offsets =>
      cases hlist
      exact isReadable_index ((index_lt_of_mem_lines hline).le.trans (by decide))

/-- A polygon, a noisy gate and a detector, with arguments of at most one. -/
theorem finite_of_small_arguments :
    let text := "#!pragma POLYGON(0,0,1,0.5) 0\nX_ERROR(0.25) 0\nM 0\nDETECTOR rec[-1]"
    ArgumentsFit .standard text ∧ FewDetectors .standard text ∧
      ∀ line ∈ lines (parseWith .standard text).circuit .annotated, ∀ list ∈ line.argumentList?,
        IsReadable list := by
  intro text
  have hsmall : ∀ a ∈ course .standard (Source.normalize text.toList),
      ∀ i ∈ (Instruction.read (Text.trim a.text)).toOption, ∀ x ∈ i.args, |x.toRat| ≤ 1 := by
    decide +kernel
  have hfit : ArgumentsFit .standard text := by
    intro a ha i hread x hx
    calc |x.toRat| ≤ 1 := hsmall a ha i (by rw [hread]; rfl) x hx
      _ < 2 ^ 127 := by norm_num
      _ ≤ Format.binary32.overflow := Format.pow_le_overflow .binary32
  have hfew : FewDetectors .standard text := by
    unfold FewDetectors
    decide +kernel
  exact ⟨hfit, hfew, fun line hline list hlist =>
    ((parseWith_finite .standard text hfit hfew).2.2 .annotated line hline list hlist).1⟩

end Build

end StimOverlay
