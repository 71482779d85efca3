import StimOverlay.Proofs.Directive.WrittenAssignments
import StimOverlay.Proofs.Emission.LineBuilding
import StimOverlay.Proofs.Run.ActEdits

/-! Written directives. The declaration of a sheet and the header of a polygon are built as they were
written: the sheet is declared under its name and at its height, and the header waits with its style, until
the polygon behind it is drawn. -/

namespace StimOverlay

open Build Emission Numeric

namespace Numeric

/-- A whole number is written as its digits, behind a sign if it is negative. -/
theorem toList_toString (z : Int) :
    (∃ n : Nat, z = n ∧ (toString z).toList = Nat.toDigits 10 n) ∨
      ∃ n : Nat, z = -n ∧ (toString z).toList = '-' :: Nat.toDigits 10 n := by
  cases z with
  | ofNat n =>
      have htext : toString (Int.ofNat n) = toString n := rfl
      exact .inl ⟨n, rfl, by rw [htext]; simp⟩
  | negSucc n =>
      have htext : toString (Int.negSucc n) = "-" ++ toString (n + 1) := rfl
      exact .inr ⟨n + 1, rfl, by rw [htext]; simp⟩

theorem truncate_intCast (z : Int) : Binary.truncate (z : Rat) = z := by
  rw [Binary.truncate, ← Rat.intCast_neg, Rat.floor_intCast, Rat.floor_intCast]
  split <;> omega

/-- A height of a sheet is read as it is written. -/
theorem exists_height {z : Int} (hlow : leastZ ≤ z) (hhigh : z ≤ greatestZ) :
    ∃ x : Binary64, Binary.readFinite? .binary64 (toString z).toList = some x ∧
      x.toInt leastZ greatestZ = z := by
  simp only [leastZ, greatestZ] at hlow hhigh
  have hbound {n : Nat} (hn : n ≤ 2147483648) : n < 2 ^ Format.binary64.precision ∧
      ((Nat.toDigits 10 n).length : Int) ≤ Format.binary64.maxExponent := by
    have hlength := Instruction.length_toDigits_le (show n ≤ 2 ^ 64 by omega)
    exact ⟨hn.trans_lt (by decide), Int.le_trans (Int.ofNat_le.2 hlength) (by decide)⟩
  have hkept {x : Binary64} (hx : x.isFinite) (hvalue : x.toRat = (z : Rat)) :
      x.toInt leastZ greatestZ = z := by
    cases x with
    | nan negative => cases hx
    | infinite negative => cases hx
    | finite negative m e h =>
        rw [Binary.toInt, hvalue, truncate_intCast]
        simp only [leastZ, greatestZ]
        omega
  rcases toList_toString z with ⟨n, rfl, htext⟩ | ⟨n, rfl, htext⟩
  · obtain ⟨hlt, hdigits⟩ := hbound (n := n) (by omega)
    obtain ⟨hfinite, hvalue⟩ := Binary.toRat_ofNat Format.ample_binary64 hlt
    refine ⟨.ofNat .binary64 n, ?_, hkept hfinite (by rw [hvalue, Int.cast_natCast])⟩
    rw [htext, Binary.readFinite?_toDigits Format.ample_binary64 hdigits hfinite]
  · obtain ⟨hlt, hdigits⟩ := hbound (n := n) (by omega)
    obtain ⟨x, hread, hfinite, hvalue⟩ :=
      Binary.readFinite?_negative Format.ample_binary64 hlt hdigits
    refine ⟨x, by rw [htext, hread], hkept hfinite (by rw [hvalue]; push_cast; rfl)⟩

/-- The text of a height is a value that needs no quotes. -/
theorem isBare_height (z : Int) : Directive.IsBare (toString z).toList := by
  have hplain : ∀ c ∈ '-' :: digitChars,
      Text.isBlank c = false ∧ c ∉ ['"', '(', ')', ';', '#'] := List.all_iff_forall_prop.1 (by decide)
  have hchars {n : Nat} {c : Char} (hc : c ∈ Nat.toDigits 10 n) : c ∈ '-' :: digitChars :=
    List.mem_cons_of_mem _ (mem_digitChars (isDigit_of_mem_toDigits hc))
  rcases toList_toString z with ⟨n, -, htext⟩ | ⟨n, -, htext⟩
  · rw [htext]
    exact ⟨Nat.toDigits_ne_nil, fun c hc => hplain c (hchars hc)⟩
  · rw [htext]
    refine ⟨by simp, fun c hc => hplain c ?_⟩
    rcases List.mem_cons.1 hc with rfl | hc
    · exact List.mem_cons_self
    · exact hchars hc

end Numeric

/-- A value that stays plain, and on its line. -/
def Directive.IsValue (value : String) : Prop := IsPlain value.toList ∧ '\n' ∉ value.toList

namespace Emission

/-- What the declaration of a sheet assigns. -/
def sheetPairs (name : String) (z : Int) : List (String × String) :=
  [("NAME", name), ("Z", toString z)]

/-- What the header of a polygon assigns. -/
def headerPairs (sheet : String) (stroke fill : Option String) : List (String × String) :=
  ("SHEET", sheet) :: ((stroke.map ("STROKE", ·)).toList ++ (fill.map ("FILL", ·)).toList)

/-- The style of a polygon is made of values. -/
def IsStyle (sheet : String) (stroke fill : Option String) : Prop :=
  Directive.IsValue sheet ∧ (∀ v ∈ stroke, Directive.IsValue v) ∧ ∀ v ∈ fill, Directive.IsValue v

variable {n : Numbering} {name sheet : String} {z : Int} {stroke fill : Option String}

theorem valueText_of_isPlain {value : String} (h : Directive.IsPlain value.toList) :
    valueText value = value := by
  rw [valueText, Directive.writeValue_plain h, String.ofList_toList]

theorem assignable_sheet (h : Directive.IsValue name) : Directive.Assignable (sheetPairs name z) := by
  intro p hp
  simp only [sheetPairs, List.mem_cons, List.not_mem_nil, or_false] at hp
  rcases hp with rfl | rfl
  · exact ⟨show Directive.isKey "NAME".toList by decide, h.1⟩
  · exact ⟨show Directive.isKey "Z".toList by decide, .inl (isBare_height z)⟩

theorem mem_headerPairs {p : String × String} (hp : p ∈ headerPairs sheet stroke fill) :
    p = ("SHEET", sheet) ∨ (∃ v ∈ stroke, p = ("STROKE", v)) ∨ ∃ v ∈ fill, p = ("FILL", v) := by
  simp only [headerPairs, List.mem_cons, List.mem_append, Option.mem_toList, Option.map_eq_some_iff,
    Option.mem_def] at hp ⊢
  rcases hp with hp | ⟨v, hv, hp⟩ | ⟨v, hv, hp⟩
  · exact .inl hp
  · exact .inr (.inl ⟨v, hv, hp.symm⟩)
  · exact .inr (.inr ⟨v, hv, hp.symm⟩)

theorem assignable_header (h : IsStyle sheet stroke fill) :
    Directive.Assignable (headerPairs sheet stroke fill) := by
  intro p hp
  rcases mem_headerPairs hp with rfl | ⟨v, hv, rfl⟩ | ⟨v, hv, rfl⟩
  · exact ⟨show Directive.isKey "SHEET".toList by decide, h.1.1⟩
  · exact ⟨show Directive.isKey "STROKE".toList by decide, (h.2.1 v hv).1⟩
  · exact ⟨show Directive.isKey "FILL".toList by decide, (h.2.2 v hv).1⟩

theorem normal_sheet (h : Directive.IsValue name) :
    (Line.sheet name z).normal n = Directive.line "SHEET" (sheetPairs name z) := by
  have htext : (Line.sheet name z).normal n =
    ("##! SHEET NAME=" ++ valueText name ++ " Z=" ++ toString z).toList := rfl
  rw [htext, valueText_of_isPlain h.1, Directive.line, sheetPairs, Directive.assignments]
  simp

theorem normal_header (h : IsStyle sheet stroke fill) :
    (Line.polygonHeader sheet stroke fill).normal n =
      Directive.line "POLY" (headerPairs sheet stroke fill) := by
  have hassignment {key : String} {value : Option String}
      (hvalue : ∀ v ∈ value, Directive.IsValue v) : (assignmentText key value).toList =
        (value.map (key, ·)).toList.flatMap fun p => ' ' :: (p.1.toList ++ '=' :: p.2.toList) := by
    cases value with
    | none => rfl
    | some v =>
        have htext : assignmentText key (some v) = " " ++ key ++ "=" ++ valueText v := rfl
        rw [htext, valueText_of_isPlain (hvalue v rfl).1]
        simp
  have htext : (Line.polygonHeader sheet stroke fill).normal n =
    ("##! POLY SHEET=" ++ valueText sheet ++ assignmentText "STROKE" stroke ++
      assignmentText "FILL" fill).toList := rfl
  rw [htext, valueText_of_isPlain h.1.1, Directive.line, headerPairs, Directive.assignments_cons,
    String.toList_append, String.toList_append, hassignment h.2.1, hassignment h.2.2,
    List.flatMap_append]
  simp

/-- The keys of written directives are in upper case. -/
theorem upperCase_keys : ∀ key ∈ ["NAME", "Z", "SHEET", "STROKE", "FILL"],
    Directive.upperCase key = key := by decide

theorem get?_sheet (h : Directive.IsValue name) (key : String) :
    (Directive.Keys.read (Directive.assignments (sheetPairs name z))).get? key =
      (sheetPairs name z).lookup key := by
  refine Directive.Keys.get?_assignments (assignable_sheet h) ?_ ?_ key
  case refine_2 => exact show ["NAME", "Z"].Nodup by decide
  rw [sheetPairs, List.map_cons, List.map_cons, List.map_nil, upperCase_keys _ (by simp),
    upperCase_keys _ (by simp)]

theorem get?_header (h : IsStyle sheet stroke fill) (key : String) :
    (Directive.Keys.read (Directive.assignments (headerPairs sheet stroke fill))).get? key =
      (headerPairs sheet stroke fill).lookup key := by
  refine Directive.Keys.get?_assignments (assignable_header h) ?_ ?_ key
  · refine (List.map_congr_left fun p hp => ?_).trans (List.map_id _)
    rcases mem_headerPairs hp with rfl | ⟨v, -, rfl⟩ | ⟨v, -, rfl⟩ <;>
      exact congrArg (·, _) (upperCase_keys _ (by simp))
  · have hkeys : ((headerPairs sheet stroke fill).map (·.1)).Sublist ["SHEET", "STROKE", "FILL"] := by
      cases stroke <;> cases fill <;> simp [headerPairs]
    exact (show ["SHEET", "STROKE", "FILL"].Nodup by decide).sublist hkeys

end Emission

namespace Emission

/-- What a polygon shows, whatever its lines. -/
structure Figure where
  style : PolygonStyle
  body : PolygonBody
deriving DecidableEq

/-- The figure over the qubits with the new numbers. -/
def Figure.renumber (n : Numbering) (f : Figure) : Figure :=
  { f with body := { f.body with corners := f.body.corners.map n.number } }

/-- What an overlay shows, if it is a polygon. -/
def figure? : Overlay → Option Figure
  | .polygon p => some ⟨⟨p.sheet, p.stroke, p.fill⟩, ⟨p.colour, p.corners⟩⟩
  | _ => none

/-- The figures on a layer, in the order in which they are drawn. -/
def figuresOf (l : Layer) : List Figure := l.overlays.toList.filterMap figure?

end Emission

namespace Build

variable {ctx : Context} {s : State}

theorem resolve_other_of_free (h : s.anchor = .free) (line : Nat) :
    s.resolve line .other = .ok s :=
  resolve_of_free h (fun _ => Outcome.noConfusion) line

/-- A polygon completes the header that waits for it. -/
theorem resolve_polygon {start : Nat} {style : PolygonStyle} (h : s.anchor = .polygon start style)
    (line : Nat) (body : PolygonBody) : s.resolve line (.polygon (some body)) =
      .ok (State.drawPolygon { s with anchor := .free } start line false style body) := by
  obtain ⟨circuit, diagnostics, anchor, contentSeen, record, detectors, headers⟩ := s
  subst h
  rfl

/-- A directive is applied, if nothing waits in front of it. -/
theorem buildLine_directive {text : List Char} (htrim : Text.trim text = text)
    (htrivia : State.isTrivia text = false) (hdirective : Source.isDirective text)
    (hfree : s.anchor = .free) (number : Nat) :
    s.buildLine ctx number text = s.apply ctx number (Directive.read text) := by
  unfold State.buildLine
  dsimp only
  rw [htrim, htrivia, if_neg Bool.false_ne_true, if_pos hdirective, resolve_other_of_free hfree]
  generalize Directive.read text = d
  rfl

theorem requireSheet_of_hasSheet {name : String} (h : s.circuit.HasSheet name) (line : Nat) :
    s.requireSheet line name = .ok () :=
  if_pos (Circuit.isSome_sheet?.2 h)

/-- The header of a polygon waits with its style. -/
theorem apply_polygon {d : Directive} {sheet : String} (hkind : d.kind = .polygon)
    (hsheet : d.keys.get? "SHEET" = some sheet) (hhas : s.circuit.HasSheet sheet) (line : Nat) :
    s.apply ctx line d = .ok { s with
      anchor := .polygon line ⟨sheet, d.keys.get? "STROKE", d.keys.get? "FILL"⟩ } := by
  rw [State.apply, hkind]
  dsimp only
  rw [State.applyPolygon, hsheet]
  dsimp only [Option.getD_some]
  rw [requireSheet_of_hasSheet hhas]
  rfl

theorem isInstruction_of_read {text : List Char} {i : Instruction}
    (h : Instruction.read (Text.trim text) = .ok i) :
    State.isTrivia (Text.trim text) = false ∧ Source.isDirective (Text.trim text) = false := by
  cases htrim : Text.trim text with
  | nil =>
      rw [htrim] at h
      cases h
  | cons c rest =>
      refine Source.isInstruction_cons (Text.head?_trim text c (by rw [htrim]; rfl)) ?_ rest
      rintro rfl
      -- A hash is no beginning of a name.
      unfold Instruction.read at h
      rw [Text.trim_trim, htrim] at h
      cases h

theorem buildLine_polygon {text : List Char} {body : PolygonBody} (h : IsPolygon text body)
    (s : State) (line : Nat) : s.buildLine ctx line text =
      { s with contentSeen := true }.resolve line (.polygon (some body)) := by
  obtain ⟨i, hread, hname, hbody⟩ := h
  obtain ⟨htrivia, hdirective⟩ := isInstruction_of_read hread
  have hbuild (u : State) : u.build ctx line (Text.trim text) i = .ok (.polygon (some body), u) := by
    rw [State.build, hname, if_neg (by decide), if_neg (by decide), if_pos rfl, hbody]
  unfold State.buildLine
  dsimp only
  rw [htrivia, hdirective, hread, if_neg Bool.false_ne_true, if_neg Bool.false_ne_true]
  dsimp only
  unfold State.buildInstruction
  rw [hbuild, hname, decide_eq_false fun h => absurd h.1 (by decide)]
  cases s.anchor <;> rfl

variable {n : Numbering} {name sheet : String} {z : Int} {stroke fill : Option String}

/-- The declaration of a sheet declares it, at the top. -/
theorem buildLine_sheet (hname : Directive.IsValue name) (hlow : leastZ ≤ z) (hhigh : z ≤ greatestZ)
    (hfree : s.anchor = .free) (htop : s.contentSeen = false) (hnew : ¬s.circuit.HasSheet name)
    (number : Nat) : s.buildLine ctx number ((Line.sheet name z).normal n) =
      .ok (State.draw { s with circuit := s.circuit.addSheet { name, z } } (.sheet number name z)) := by
  have hassignable := assignable_sheet (z := z) hname
  have hcommand : "SHEET" ∈ Directive.writtenCommands := by decide
  obtain ⟨hkind, hkeys⟩ := Directive.read_line hcommand (by simp [sheetPairs]) hassignable
  obtain ⟨x, hread, hz⟩ := exists_height hlow hhigh
  rw [normal_sheet hname, buildLine_directive (Directive.trim_line (by simp [sheetPairs]) hassignable)
    (Directive.isTrivia_line _ _) (Directive.isDirective_line _ _) hfree, State.apply, hkind, hkeys]
  have hget := get?_sheet (z := z) hname
  generalize Directive.Keys.read (Directive.assignments (sheetPairs name z)) = keys at hget
  have hnamed : keys.get? "NAME" = some name := hget "NAME"
  have hheight : keys.getNumber? "Z" = some x := by
    rw [Directive.Keys.getNumber?, hget]
    exact hread
  have hmissing : (s.circuit.sheet? name).isSome = false :=
    Bool.eq_false_iff.2 fun h => hnew (Circuit.isSome_sheet?.1 h)
  change s.declareSheet number keys = _
  rw [State.declareSheet, hnamed]
  simp only [htop, hmissing, hheight, hz, Option.map_some, Option.getD_some, Bool.false_eq_true,
    if_false]

/-- The header of a polygon on a declared sheet waits with its style. -/
theorem buildLine_polygonHeader (hstyle : IsStyle sheet stroke fill) (hfree : s.anchor = .free)
    (hhas : s.circuit.HasSheet sheet) (number : Nat) :
    s.buildLine ctx number ((Line.polygonHeader sheet stroke fill).normal n) =
      .ok { s with anchor := .polygon number ⟨sheet, stroke, fill⟩ } := by
  have hassignable := assignable_header hstyle
  have hne : headerPairs sheet stroke fill ≠ [] := List.cons_ne_nil _ _
  have hcommand : "POLY" ∈ Directive.writtenCommands := by decide
  obtain ⟨hkind, hkeys⟩ := Directive.read_line hcommand hne hassignable
  have hget := get?_header hstyle
  rw [← hkeys] at hget
  rw [normal_header hstyle, buildLine_directive (Directive.trim_line hne hassignable)
    (Directive.isTrivia_line _ _) (Directive.isDirective_line _ _) hfree,
    apply_polygon hkind (hget "SHEET") hhas, hget, hget]
  cases stroke <;> cases fill <;> rfl

/-- A body in normal form is a polygon. -/
theorem isPolygon_normal {colour : Colour} {corners : List QubitId}
    (h : (Line.polygonBody colour corners).Legible n) :
    IsPolygon ((Line.polygonBody colour corners).normal n) ⟨colour, corners.map n.number⟩ := by
  obtain ⟨i, hmeans, hreadable⟩ := readable_of_legible h
  refine ⟨i, by rw [hreadable.settled.trimmed, hreadable.read], ?_⟩
  cases hmeans with
  | polygonBody colour corners args hargs =>
      have hcorners (corners : List QubitId) :
          corners? (corners.map fun q => .qubit (n.number q) false) =
            some (corners.map n.number) := by
        induction corners with
        | nil => rfl
        | cons q rest ih => rw [List.map_cons, corners?, ih, Option.map_some, List.map_cons]
      have hne : (corners.map n.number).isEmpty = false := by simpa using h.2.1
      refine ⟨rfl, fun s line => ?_⟩
      rw [State.buildPolygon, hargs, hcorners]
      dsimp only [Colour.components]
      rw [PolygonBody.ofCorners?, hne]
      rfl

end Build

end StimOverlay
