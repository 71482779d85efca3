import Mathlib.Logic.Relation
import StimOverlay.Proofs.Block.UnrolledRepeats
import StimOverlay.Proofs.Directive.AssignedValues
import StimOverlay.Proofs.Run.InstructionAdditions

/-! Edits of acts. Besides what instructions add, there are only a few ways in which an act changes a
state: a directive comes to wait or is done with, something is drawn, a sheet is declared or a qubit
described, and there may be a warning. An act that halts has made such edits, and then reports an error.
-/

namespace StimOverlay

open Numeric

/-- The circuit has a sheet of the given name. -/
def Circuit.HasSheet (c : Circuit) (name : String) : Prop := name ∈ c.sheets.map Sheet.name

theorem Circuit.isSome_sheet? {c : Circuit} {name : String} :
    (c.sheet? name).isSome ↔ c.HasSheet name := by
  simp [sheet?, HasSheet, List.find?_isSome]

namespace Build

/-- The line of the directive that waits. -/
def Anchor.line? : Anchor → Option Nat
  | .free => none
  | .coordinates line _ => some line
  | .gate line .. => some line
  | .polygon line _ => some line

/-- The sheet that the directive that waits is for. -/
def Anchor.sheet? : Anchor → Option String
  | .coordinates _ data => data.sheet
  | .polygon _ style => some style.sheet
  | _ => none

/-- A line that is a polygon instruction with a body. -/
def IsPolygon (text : List Char) (body : PolygonBody) : Prop :=
  ∃ i, Instruction.read (Text.trim text) = .ok i ∧ i.name = polygonName ∧
    ∀ (s : State) (line : Nat), s.buildPolygon line i = .ok (.polygon (some body), s)

/-- A line that is the header of a polygon. -/
def IsPolygonHeader (text : List Char) : Prop :=
  Source.isDirective text ∧ (Directive.read text).kind = .polygon

/-- The values of a style stand in the text. -/
structure PolygonStyle.From (text : List Char) (style : PolygonStyle) : Prop where
  stroke : ∀ v ∈ style.stroke, v.toList ⊆ text
  fill : ∀ v ∈ style.fill, v.toList ⊆ text

namespace Act

def number : Act → Nat
  | .line number _ => number
  | .structural number => number
  | .fault number _ => number

/-- The text of a line; other acts have none. -/
def text : Act → List Char
  | .line _ text => text
  | _ => []

end Act

/-- A single change that act `a` makes, given the line of the directive that waits in front of it. -/
inductive Edit (a : Act) (start : Option Nat) : State → State → Prop where
  | adds {s t : State} (h : Adds a.number s t) : Edit a start s t
  | release (s : State) : Edit a start s { s with anchor := .free }
  | await {s : State} {w : Anchor} (line : w.line? = some a.number)
      (sheet : ∀ name ∈ w.sheet?, s.circuit.HasSheet name)
      (header : ∀ k style, w = .polygon k style → IsPolygonHeader (Text.trim a.text))
      (values : ∀ k style, w = .polygon k style → style.From a.text) :
      Edit a start s { s with anchor := w }
  | warn {s : State} {line : Nat} {p : Problem} (here : line = a.number ∨ start = some line)
      (warning : p.severity = .warning) : Edit a start s (s.report line p)
  | draw {s : State} {o : Overlay}
      (sheet : o.sheetName = defaultSheet ∨ s.circuit.HasSheet o.sheetName)
      (other : ∀ p, o ≠ .polygon p) : Edit a start s (s.draw o)
  | highlightGate {s : State} (layer line : Nat) (gate : String) (targets : List QubitId)
      (colour : Option String) : Edit a start s
        (s.mapSchedule (·.modify layer (·.draw (.gateHighlight line gate targets colour))))
  | drawPolygon {s : State} {line : Nat} {style : PolygonStyle} {body : PolygonBody}
      (header : s.anchor = .polygon line style) (polygon : IsPolygon a.text body) :
      Edit a start s (s.drawPolygon line a.number false style body)
  | drawBarePolygon {s : State} {body : PolygonBody} (free : start = none)
      (polygon : IsPolygon a.text body) : Edit a start s (s.drawBarePolygon a.number body)
  | declareSheet {s : State} {name : String} {z : Int} (fresh : ¬s.circuit.HasSheet name)
      (value : name.toList ⊆ a.text) (low : leastZ ≤ z) (high : z ≤ greatestZ) :
      Edit a start s { s with circuit := s.circuit.addSheet { name, z } }
  | describe {s : State} (q : QubitId) {data : QubitData}
      (sheet : ∀ name ∈ data.sheet, s.circuit.HasSheet name ∨ name ∈ s.anchor.sheet?) :
      Edit a start s (s.describe q data)

/-- A step that gives a result with the property `Q`, or has made edits and halts with an error of the
line of the act or of the directive in front of it. -/
def Editing (a : Act) (start : Option Nat) (s : State) (Q : α → Prop) : Step α → Prop
  | .ok r => Q r
  | .error e => ∃ t line p, Relation.ReflTransGen (Edit a start) s t ∧
      (line = a.number ∨ start = some line) ∧ p.severity = .error ∧ e.state = t.report line p

/-- The states that edits lead to from `s`. -/
def Edited (a : Act) (start : Option Nat) (s : State) : State → Prop :=
  Relation.ReflTransGen (Edit a start) s

variable {a : Act} {start : Option Nat} {s t : State}

theorem Edit.edited (h : Edit a start s t) : Edited a start s t := .single h

namespace Editing

variable {P : α → Prop} {Q : β → Prop}

theorem bind {x : Step α} {f : α → Step β} (h : Editing a start s P x)
    (hf : ∀ r, P r → Editing a start s Q (f r)) : Editing a start s Q (x >>= f) := by
  cases x with
  | ok r => exact hf r h
  | error e => exact h

theorem halt (h : Edited a start s t) {line : Nat} (hline : line = a.number ∨ start = some line)
    {p : Problem} (hp : p.severity = .error) : Editing a start s P (t.halt line p) :=
  ⟨t, line, p, h, hline, hp, rfl⟩

theorem halt_here (h : Edited a start s t) {p : Problem} (hp : p.severity = .error) :
    Editing a start s P (t.halt a.number p) := halt h (.inl rfl) hp

theorem of_adding {x : Step α} (h : Adding a.number s P x) : Editing a start s P x := by
  cases x with
  | ok r => exact h
  | error e =>
      obtain ⟨t, p, hadds, hp, he⟩ := h
      exact ⟨t, a.number, p, .single (.adds hadds), .inl rfl, hp, he⟩

/-- What edits behind edits, edits. -/
theorem behind {x : Step State} (h : Edited a start s t)
    (hx : Editing a start t (Edited a start t) x) : Editing a start s (Edited a start s) x := by
  cases x with
  | ok u => exact h.trans hx
  | error e =>
      obtain ⟨u, line, p, hedited, hrest⟩ := hx
      exact ⟨u, line, p, h.trans hedited, hrest⟩

end Editing

theorem edited_highlightGate {line : Nat} (hline : start = some line) (colour : Option String)
    (qubits : List QubitId) (gate : String) (targets : List QubitId) (layer : Nat) :
    Edited a start s (s.highlightGate line colour qubits gate targets layer) := by
  unfold State.highlightGate
  dsimp only
  split_ifs
  · exact (Edit.highlightGate ..).edited
  · exact (Edit.warn (.inr hline) rfl).edited.tail (.highlightGate ..)

/-- A waiting directive is resolved against the line of the act. -/
theorem editing_resolve (hstart : s.anchor.line? = start) {o : Outcome}
    (ho : ∀ body, o = .polygon (some body) → IsPolygon a.text body) :
    Editing a start s (Edited a start s) (s.resolve a.number o) := by
  have hrelease : Edited a start s { s with anchor := .free } := (Edit.release s).edited
  have hhalt {line : Nat} (hline : s.anchor.line? = some line) {p : Problem}
      (hp : p.severity = .error) :
      Editing a start s (Edited a start s) ({ s with anchor := .free }.halt line p) :=
    .halt hrelease (.inr (hstart.symm.trans hline)) hp
  unfold State.resolve
  cases hanchor : s.anchor with
  | free =>
      cases o with
      | polygon body =>
          cases body with
          | none => exact hrelease
          | some body =>
              have hnone : start = none := by rw [← hstart, hanchor, Anchor.line?]
              exact hrelease.tail (.drawBarePolygon hnone (ho body rfl))
      | _ => exact hrelease
  | coordinates line data =>
      have hline : s.anchor.line? = some line := by rw [hanchor]; rfl
      cases o with
      | declared q =>
          have hdescribe : Edit a start s (s.describe q data) :=
            .describe q fun name hname => .inr (by rw [hanchor]; exact hname)
          exact hdescribe.edited.tail (.release _)
      | _ => exact hhalt hline rfl
  | gate line colour qubits =>
      have hline : s.anchor.line? = some line := by rw [hanchor]; rfl
      cases o with
      | applied gate targets layer =>
          exact hrelease.trans
            (edited_highlightGate (hstart.symm.trans hline) colour qubits gate targets layer)
      | _ => exact hhalt hline rfl
  | polygon line style =>
      have hline : s.anchor.line? = some line := by rw [hanchor]; rfl
      cases o with
      | polygon body =>
          cases body with
          | none => exact hrelease
          | some body => exact (Edit.drawPolygon hanchor (ho body rfl)).edited.tail (.release _)
      | _ => exact hhalt hline rfl

theorem editing_requireSheet (s : State) (name : String) :
    Editing a start s (fun _ => s.circuit.HasSheet name) (s.requireSheet a.number name) := by
  unfold State.requireSheet
  split_ifs with hsheet
  · exact Circuit.isSome_sheet?.1 hsheet
  · exact .halt_here .refl rfl

theorem editing_declareSheet (s : State) {keys : Directive.Keys} (hkeys : keys.From a.text) :
    Editing a start s (Edited a start s) (s.declareSheet a.number keys) := by
  unfold State.declareSheet
  split
  · exact .halt_here .refl rfl
  · rename_i name hname
    split_ifs with hseen hsheet
    · exact .halt_here .refl rfl
    · exact .halt_here .refl rfl
    · obtain ⟨hlow, hhigh⟩ : leastZ ≤ ((keys.getNumber? "Z").map (Binary.toInt leastZ greatestZ)).getD 0 ∧
          ((keys.getNumber? "Z").map (Binary.toInt leastZ greatestZ)).getD 0 ≤ greatestZ := by
        cases keys.getNumber? "Z" with
        | none => decide
        | some x => exact x.toInt_mem (by decide) (by decide)
      have hdeclare : Edit a start s _ := .declareSheet (fun h => hsheet (Circuit.isSome_sheet?.2 h))
        (hkeys.get? hname) hlow hhigh
      refine hdeclare.edited.tail (.draw (.inr ?_) fun p h => by cases h)
      simp [Circuit.HasSheet, Circuit.addSheet, Overlay.sheetName]

/-- What is left of applying qubit data when its sheet has been checked. -/
def State.describeNamed (s : State) (line : Nat) (keys : Directive.Keys) : Step State :=
  if keys.contains "Q" then
    match readNat? (maxQubitId + 1) ((keys.get? "Q").getD "").toList with
    | some q => .ok (s.describe q (.ofKeys keys))
    | none => s.halt line (.qubitInvalid ((keys.get? "Q").getD ""))
  else .ok { s with anchor := .coordinates line (.ofKeys keys) }

theorem State.applyQubit_eq (s : State) (line : Nat) (keys : Directive.Keys) :
    s.applyQubit line keys =
      (QubitData.ofKeys keys).sheet.elim (.ok ()) (s.requireSheet line) >>= fun _ =>
        s.describeNamed line keys := by
  unfold applyQubit
  dsimp only
  cases (QubitData.ofKeys keys).sheet <;> rfl

/-- A qubit is described at once, or when it is declared. -/
theorem editing_describeNamed (s : State) (keys : Directive.Keys)
    (hsheet : ∀ name ∈ (QubitData.ofKeys keys).sheet, s.circuit.HasSheet name) :
    Editing a start s (Edited a start s) (s.describeNamed a.number keys) := by
  unfold State.describeNamed
  split_ifs
  · split
    · exact (Edit.describe _ fun name hname => .inl (hsheet name hname)).edited
    · exact .halt_here .refl rfl
  · exact (Edit.await (w := .coordinates a.number (.ofKeys keys)) rfl hsheet
      (fun k style h => by cases h) fun k style h => by cases h).edited

theorem editing_applyQubit (s : State) (keys : Directive.Keys) :
    Editing a start s (Edited a start s) (s.applyQubit a.number keys) := by
  have hchecked : Editing a start s
      (fun _ => ∀ name ∈ (QubitData.ofKeys keys).sheet, s.circuit.HasSheet name)
      ((QubitData.ofKeys keys).sheet.elim (.ok ()) (s.requireSheet a.number)) := by
    cases (QubitData.ofKeys keys).sheet with
    | none => exact fun name hname => absurd hname (Option.not_mem_none name)
    | some sheet =>
        have hrequire : Editing a start s (fun _ => s.circuit.HasSheet sheet)
            (s.requireSheet a.number sheet) := editing_requireSheet s sheet
        rw [Option.elim_some]
        cases hstep : s.requireSheet a.number sheet with
        | ok u =>
            rw [hstep] at hrequire
            intro name hname
            rw [Option.mem_some_iff] at hname
            exact hname ▸ hrequire
        | error e => rwa [hstep] at hrequire
  rw [State.applyQubit_eq]
  exact hchecked.bind fun _ hsheet => editing_describeNamed s keys hsheet

theorem editing_applyConnections (s : State) (keys : Directive.Keys) :
    Editing a start s (Edited a start s) (s.applyConnections a.number keys) := by
  unfold State.applyConnections
  refine (editing_requireSheet s _).bind fun _ hsheet => ?_
  exact (Edit.draw (.inr hsheet) fun p h => by cases h).edited

theorem edited_applyHighlight (s : State) (keys : Directive.Keys) :
    Edited a start s (s.applyHighlight a.number keys) := by
  unfold State.applyHighlight
  dsimp only
  split_ifs
  · exact (Edit.await (w := .gate ..) rfl (fun name h => absurd h (Option.not_mem_none name))
      (fun k style h => by cases h) fun k style h => by cases h).edited
  · exact (Edit.draw (.inl rfl) fun p h => by cases h).edited

theorem editing_applyPolygon (s : State) {keys : Directive.Keys} (hkeys : keys.From a.text)
    (hheader : IsPolygonHeader (Text.trim a.text)) :
    Editing a start s (Edited a start s) (s.applyPolygon a.number keys) := by
  unfold State.applyPolygon
  refine (editing_requireSheet s _).bind fun _ hsheet => ?_
  refine (Edit.await (w := .polygon ..) rfl (fun name hname => ?_) (fun k style h => hheader)
    fun k style h => ?_).edited
  · cases hname
    exact hsheet
  · cases h
    exact ⟨fun v hv => hkeys.get? hv, fun v hv => hkeys.get? hv⟩

/-- A directive acts at once or comes to wait. -/
theorem editing_apply (s : State) (ctx : Context) {d : Directive} (hkeys : d.keys.From a.text)
    (hheader : d.kind = .polygon → IsPolygonHeader (Text.trim a.text)) :
    Editing a start s (Edited a start s) (s.apply ctx a.number d) := by
  unfold State.apply
  cases hkind : d.kind with
  | sheet => exact editing_declareSheet s hkeys
  | qubit => exact editing_applyQubit s _
  | connections => exact editing_applyConnections s _
  | highlight => exact edited_applyHighlight s _
  | polygon => exact editing_applyPolygon s hkeys (hheader hkind)
  | unknown =>
      simp only [State.judge]
      split_ifs with hsevere
      · exact .halt_here .refl hsevere
      · refine (Edit.warn (.inl rfl) ?_).edited
        cases hseverity : Problem.severity (.directiveUnknown d.body ctx.unknownDirective) with
        | error => exact absurd hseverity hsevere
        | warning => rfl

theorem ne_polygon_of_buildProducts {line : Nat} {i : Instruction} {o : Outcome} {t : State}
    (h : s.buildProducts line i = .ok (o, t)) (body : Option PolygonBody) : o ≠ .polygon body := by
  rintro rfl
  unfold State.buildProducts at h
  generalize productsAfter false i.targets = split at h
  obtain ⟨_, products, _ | bad⟩ := split
  · obtain ⟨u, -, hu⟩ := exists_ok_of_bind h
    cases hu
  · cases h

theorem ne_polygon_of_buildNamed {ctx : Context} {line : Nat} {source : List Char}
    {i : Instruction} {o : Outcome} {t : State} (h : s.buildNamed ctx line source i = .ok (o, t))
    (body : Option PolygonBody) : o ≠ .polygon body := by
  rintro rfl
  unfold State.buildNamed State.buildGate at h
  dsimp only at h
  split at h
  · cases h
  · split at h
    · split at h
      · cases h
      · split_ifs at h
        · cases h
        · obtain ⟨⟨touched, u⟩, -, hu⟩ := exists_ok_of_bind h
          have ho := (Prod.mk.inj (Except.ok.inj hu)).1
          split_ifs at ho
    · cases h

/-- Only polygons come out as polygons. -/
theorem isPolygon_of_build {ctx : Context} {line : Nat} {source : List Char} {i : Instruction}
    {body : PolygonBody} {t : State}
    (h : s.build ctx line source i = .ok (.polygon (some body), t)) :
    i.name = polygonName ∧
      ∀ (s : State) (line : Nat), s.buildPolygon line i = .ok (.polygon (some body), s) := by
  unfold State.build at h
  split_ifs at h with htick hcoordinates hpolygon hmarker hproduct
  · cases h
  · unfold State.buildCoordinates at h
    split at h
    · dsimp only at h
      split at h <;> cases h
    · cases h
  · refine ⟨hpolygon, fun u number => ?_⟩
    unfold State.buildPolygon at h ⊢
    split at h
    · rw [← (Outcome.polygon.inj (Prod.mk.inj (Except.ok.inj h)).1)]
    · cases h
  · cases hbuild : s.buildMarker ctx line source i with
    | error e =>
        rw [hbuild] at h
        cases h
    | ok u =>
        rw [hbuild] at h
        cases h
  · exact absurd rfl (ne_polygon_of_buildProducts h _)
  · exact absurd rfl (ne_polygon_of_buildNamed h _)

theorem editing_buildInstruction {ctx : Context} (hstart : s.anchor.line? = start)
    {i : Instruction} (hread : Instruction.read (Text.trim a.text) = .ok i) :
    Editing a start s (Edited a start s)
      (s.buildInstruction ctx a.number (Text.trim a.text) i) := by
  have hbuilt : Editing a start s (Edited a start s)
      (s.build ctx a.number (Text.trim a.text) i >>= fun r => r.2.resolve a.number r.1) := by
    refine Editing.bind (P := fun r => Adds a.number s r.2 ∧
      s.build ctx a.number (Text.trim a.text) i = .ok r) ?_ ?_
    · have hadding : Editing a start s (fun r => Adds a.number s r.2)
          (s.build ctx a.number (Text.trim a.text) i) := .of_adding (adding_build s _)
      cases hbuild : s.build ctx a.number (Text.trim a.text) i with
      | error e => rwa [hbuild] at hadding
      | ok r =>
          rw [hbuild] at hadding
          exact ⟨hadding, rfl⟩
    · rintro ⟨outcome, t⟩ ⟨hadds, hbuild⟩
      refine .behind (Edit.adds hadds).edited (editing_resolve ?_ ?_)
      · rw [hadds.anchor, hstart]
      · rintro body rfl
        exact ⟨i, hread, isPolygon_of_build hbuild⟩
  unfold State.buildInstruction
  split
  · rename_i line data hanchor _
    refine .halt (Edit.release s).edited (.inr ?_) rfl
    rw [← hstart, hanchor]
    rfl
  · exact hbuilt

theorem editing_buildLine {ctx : Context} (hstart : s.anchor.line? = start) :
    Editing a start s (Edited a start s) (s.buildLine ctx a.number a.text) := by
  unfold State.buildLine
  dsimp only
  split_ifs with htrivia hdirective
  · exact Relation.ReflTransGen.refl
  · refine (editing_resolve hstart fun body h => by cases h).bind fun t ht => ?_
    have hheader (hkind : (Directive.read (Text.trim a.text)).kind = .polygon) :
        IsPolygonHeader (Text.trim a.text) := ⟨hdirective, hkind⟩
    have hkeys : (Directive.read (Text.trim a.text)).keys.From a.text := fun e he =>
      List.Subset.trans (Directive.from_read_line _ e he) (Text.trim_subset _)
    generalize Directive.read (Text.trim a.text) = d at hheader hkeys
    exact .behind ht (editing_apply t ctx hkeys hheader)
  · split
    · exact .halt_here .refl rfl
    · rename_i i hread
      have hseen : Edit a start s { s with contentSeen := true } :=
        .adds { Adds.refl a.number s with }
      exact .behind hseen.edited
        (editing_buildInstruction (s := { s with contentSeen := true }) hstart hread)

/-- A fault of the block structure is an error. -/
def Act.IsSevere : Act → Prop
  | .fault _ p => p.severity = .error
  | _ => True

/-- Every act makes edits, whether it halts or not. -/
theorem editing_perform (ctx : Context) (s : State) {a : Act} (ha : a.IsSevere) :
    Editing a s.anchor.line? s (Edited a s.anchor.line? s) (s.perform ctx a) := by
  cases a with
  | line number text => exact editing_buildLine (a := .line number text) rfl
  | structural number =>
      exact editing_resolve (a := .structural number) rfl fun body h => by cases h
  | fault number p => exact Editing.halt_here (a := .fault number p) .refl ha

end Build

end StimOverlay
