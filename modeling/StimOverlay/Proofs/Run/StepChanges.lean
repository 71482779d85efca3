import StimOverlay.Proofs.Run.TapeMoves

/-! What each step changes. The tape of a state is moved by exactly the moves that are read off an
instruction, also when the instruction halts halfway, and nothing but a declaration that the circuit
accepts touches the declared coordinates. Directives, overlays and diagnostics leave both alone. -/

namespace StimOverlay

open Numeric

namespace Layer

@[simp] theorem bare_mark (l : Layer) (op : Operation) : (l.mark op).bare = l.bare.mark op := rfl
@[simp] theorem bare_draw (l : Layer) (o : Overlay) : (l.draw o).bare = l.bare := rfl
@[simp] theorem bare_startingWith (op : Operation) : (startingWith op).bare = startingWith op := rfl
@[simp] theorem bare_empty : empty.bare = empty := rfl

theorem put_bare (l : Layer) (op : Operation) : l.bare.put op = (l.put op).map bare := by
  have hcollision : l.bare.collision? op = l.collision? op := rfl
  unfold put
  rw [hcollision]
  split
  · rfl
  · cases l.collision? op <;> rfl

end Layer

namespace Schedule

theorem map_place (s : Schedule) (op : Operation) :
    (s.place op).map Layer.bare = (s.map Layer.bare).place op := by
  have hcurrent : (s.map Layer.bare).current.put op = (s.current.put op).map Layer.bare :=
    Layer.put_bare s.current op
  unfold place
  rw [hcurrent]
  cases s.current.put op with
  | ok l => rfl
  | error c => simp [Except.map, advance, map]

@[simp] theorem position_map (s : Schedule) (f : Layer → Layer) :
    (s.map f).position = s.position := by simp [position, map]

theorem map_modify (s : Schedule) (k : Nat) {f g h : Layer → Layer}
    (hcomm : ∀ l, f (g l) = h (f l)) : (s.modify k g).map f = (s.map f).modify k h := by
  unfold modify
  rw [position_map]
  split
  · simp only [modifyCurrent, map, hcomm]
  · simp only [map]
    congr 1
    apply Array.ext
    · simp
    · intro i _ _
      simp only [Array.getElem_map, Array.getElem_modify]
      split <;> simp [hcomm]

theorem modify_id (s : Schedule) (k : Nat) : s.modify k (fun l => l) = s := by
  unfold modify
  split
  · rfl
  · congr 1
    apply Array.ext
    · simp
    · intro i _ _
      simp [Array.getElem_modify]

end Schedule

namespace Build

/-- The declaration that an instruction makes; missing coordinates are zero. -/
def declaration? (i : Instruction) : Option (QubitId × Point) :=
  match i.targets with
  | [.qubit q _] =>
      if i.name = coordinatesName then
        some (q, ⟨i.args[0]?.getD .zero, i.args[1]?.getD .zero⟩)
      else none
  | _ => none

/-- The declaration that stands on the line of an act. -/
def Act.declaration? (a : Act) : Option (QubitId × Point) :=
  a.instruction?.bind fun entry => Build.declaration? entry.2

/-- A declaration, if a circuit accepts it. -/
def accept? (c : Circuit) (e : QubitId × Point) : Option (QubitId × Point) :=
  (c.declare e.1 e.2).toOption.map fun _ => e

/-- The declaration that an act makes and the circuit accepts. -/
def State.accepted? (s : State) (a : Act) : Option (QubitId × Point) :=
  a.declaration?.bind (accept? s.circuit)

/-- Coordinates after a declaration, if there is one. -/
def enter (coords : Std.TreeMap QubitId Point) :
    Option (QubitId × Point) → Std.TreeMap QubitId Point
  | none => coords
  | some e => coords.insert e.1 e.2

theorem coords_declare {c d : Circuit} {q : QubitId} {p : Point} (h : c.declare q p = .ok d) :
    d.coords = c.coords.insert q p := by
  unfold Circuit.declare at h
  split at h
  · split at h
    · cases h
      rfl
    · cases h
  · cases h
    rfl

theorem declaration?_of_name {i : Instruction} (h : i.name ≠ coordinatesName) :
    declaration? i = none := by
  unfold declaration?
  split
  · exact if_neg h
  · rfl

theorem declaration?_of_length {i : Instruction} (h : i.targets.length ≠ 1) :
    declaration? i = none := by
  unfold declaration?
  split
  · rename_i htargets
    rw [htargets] at h
    exact absurd rfl h
  · rfl

theorem exists_of_declaration? {i : Instruction} {e : QubitId × Point}
    (h : declaration? i = some e) : ∃ inverted, i.targets = [.qubit e.1 inverted] := by
  unfold declaration? at h
  split at h
  · rename_i q inverted htargets
    split at h
    · cases h
      exact ⟨inverted, htargets⟩
    · cases h
  · cases h

/-- Between two states the moves of a list have been made and a declaration entered, if there is one. -/
structure Changes (ctx : Context) (ms : List Move) (e : Option (QubitId × Point)) (s t : State) :
    Prop where
  tape : t.tape = ms.foldl (Tape.move ctx) s.tape
  coords : t.circuit.coords = enter s.circuit.coords e

variable {ctx : Context}

theorem Changes.trans {ms ms' : List Move} {e : Option (QubitId × Point)} {s t u : State}
    (h : Changes ctx ms none s t) (h' : Changes ctx ms' e t u) :
    Changes ctx (ms ++ ms') e s u where
  tape := by rw [h'.tape, h.tape, List.foldl_append]
  coords := by rw [h'.coords, h.coords, enter]

/-- Drawing over a layer changes neither. -/
theorem Changes.drawOn {ms : List Move} {e : Option (QubitId × Point)} {s t : State}
    (h : Changes ctx ms e s t) (k : Nat) (o : Overlay) :
    Changes ctx ms e s (t.mapSchedule (·.modify k (·.draw o))) where
  tape := by
    have hbare : (t.circuit.schedule.modify k (·.draw o)).map Layer.bare =
        (t.circuit.schedule.map Layer.bare).modify k (fun l => l) :=
      Schedule.map_modify _ k fun l => Layer.bare_draw l o
    rw [Schedule.modify_id] at hbare
    rw [← h.tape]
    simp only [State.tape, State.mapSchedule, hbare]
  coords := h.coords

theorem Changes.draw {ms : List Move} {e : Option (QubitId × Point)} {s t : State}
    (h : Changes ctx ms e s t) (o : Overlay) : Changes ctx ms e s (t.draw o) where
  tape := by
    rw [← h.tape]
    simp only [State.draw, State.mapSchedule, State.tape, Schedule.map, Schedule.modifyCurrent,
      Layer.bare_draw]
  coords := h.coords

/-- The state that a step leaves behind, whatever else it gives. -/
def leaveSecond : Step (α × State) → State
  | .ok p => p.2
  | .error h => h.state

namespace State

@[simp] theorem leave_halt (s : State) (line : Nat) (p : Problem) :
    leave (s.halt line p) = s.report line p := rfl

theorem changes_report (s : State) (line : Nat) (p : Problem) :
    Changes ctx [] none s (s.report line p) := ⟨rfl, rfl⟩

theorem changes_drawBarePolygon (s : State) (line : Nat) (body : PolygonBody) :
    Changes ctx [] none s (s.drawBarePolygon line body) := by
  unfold drawBarePolygon drawPolygon
  dsimp only
  split
  · exact Changes.draw ⟨rfl, rfl⟩ _
  · exact Changes.draw ⟨rfl, rfl⟩ _

theorem changes_highlightGate (s : State) (line : Nat) (colour : Option String)
    (qubits : List QubitId) (gate : String) (targets : List QubitId) (layer : Nat) :
    Changes ctx [] none s (s.highlightGate line colour qubits gate targets layer) := by
  unfold highlightGate
  dsimp only
  split
  · exact Changes.drawOn ⟨rfl, rfl⟩ _ _
  · exact Changes.drawOn (changes_report s _ _) _ _

/-- Whatever a line turns out to be for the directive in front of it, nothing is changed. -/
theorem changes_resolve (s : State) (line : Nat) (o : Outcome) :
    Changes ctx [] none s (leave (s.resolve line o)) := by
  have hfree : Changes ctx [] none s { s with anchor := .free } := ⟨rfl, rfl⟩
  unfold resolve
  split
  case h_1 => exact hfree.trans (changes_drawBarePolygon _ _ _)
  case h_5 => exact hfree.trans (changes_highlightGate _ _ _ _ _ _ _)
  case h_7 => exact hfree.draw _
  all_goals exact ⟨rfl, rfl⟩

theorem requireSheet_cases (s : State) (line : Nat) (name : String) :
    s.requireSheet line name = .ok () ∨
      s.requireSheet line name = s.halt line (.sheetMissing name) := by
  unfold requireSheet
  split
  · exact .inl rfl
  · exact .inr rfl

theorem changes_declareSheet (s : State) (line : Nat) (keys : Directive.Keys) :
    Changes ctx [] none s (leave (s.declareSheet line keys)) := by
  unfold declareSheet
  split
  · exact changes_report s _ _
  · split
    · exact changes_report s _ _
    · split
      · exact changes_report s _ _
      · exact Changes.draw ⟨rfl, rfl⟩ _

theorem changes_applyQubit (s : State) (line : Nat) (keys : Directive.Keys) :
    Changes ctx [] none s (leave (s.applyQubit line keys)) := by
  unfold applyQubit
  cases hsheet : (QubitData.ofKeys keys).sheet with
  | none =>
      simp only [hsheet]
      split
      · split <;> exact ⟨rfl, rfl⟩
      · exact ⟨rfl, rfl⟩
  | some sheet =>
      simp only [hsheet]
      rcases s.requireSheet_cases line sheet with h | h
      · rw [h]
        simp only [bind, Except.bind]
        split
        · split <;> exact ⟨rfl, rfl⟩
        · exact ⟨rfl, rfl⟩
      · rw [h]
        exact changes_report s _ _

theorem changes_apply (s : State) (line : Nat) (d : Directive) :
    Changes ctx [] none s (leave (s.apply ctx line d)) := by
  unfold apply
  split
  · exact changes_declareSheet s line d.keys
  · exact changes_applyQubit s line d.keys
  · unfold applyConnections
    rcases s.requireSheet_cases line ((d.keys.get? "SHEET").getD defaultSheet) with h | h
    · simp only [h]
      exact Changes.draw ⟨rfl, rfl⟩ _
    · simp only [h]
      exact changes_report s _ _
  · unfold applyHighlight
    simp only [leave]
    split
    · exact ⟨rfl, rfl⟩
    · exact Changes.draw ⟨rfl, rfl⟩ _
  · unfold applyPolygon
    rcases s.requireSheet_cases line ((d.keys.get? "SHEET").getD defaultSheet) with h | h
    · simp only [h]
      exact ⟨rfl, rfl⟩
    · simp only [h]
      exact changes_report s _ _
  · unfold judge
    split <;> exact changes_report s _ _

theorem changes_tick (s : State) :
    Changes ctx [.tick] none s (s.mapSchedule (·.advance .empty)) where
  tape := by simp [tape, mapSchedule, Schedule.advance, Schedule.map, Tape.move]
  coords := rfl

theorem tape_place (s : State) (op : Operation) : (s.place op).tape = s.tape.place op := by
  have hposition : (s.circuit.schedule.place op).position =
      ((s.circuit.schedule.map Layer.bare).place op).position := by
    rw [← Schedule.map_place, Schedule.position_map]
  unfold place Tape.place
  cases op.targets with
  | nil => simp only [tape, mapSchedule, Schedule.map_place]
  | cons q rest =>
      cases hm : op.isMeasurement with
      | true => simp only [if_true, tape, mapSchedule, layer, hposition, Schedule.map_place]
      | false => simp only [Bool.false_eq_true, if_false, tape, mapSchedule, Schedule.map_place]

theorem changes_place (s : State) (op : Operation) :
    Changes ctx [.place op] none s (s.place op) where
  tape := s.tape_place op
  coords := by
    unfold place
    dsimp only
    split
    · rfl
    · split <;> rfl

theorem changes_markFeedback (s : State) (line : Nat) (gate : Gate) (pair : List Target)
    (q : QubitId) :
    Changes ctx ((ctx.catalog.gate? "ERR").toList.map fun err => .mark (.onQubit err "" [] q line))
      none s (s.markFeedback ctx line gate pair q) := by
  unfold markFeedback
  cases ctx.catalog.gate? "ERR" with
  | none => exact changes_report s _ _
  | some err => exact ⟨rfl, rfl⟩

theorem markSites_spec (s : State) (gate : Gate) (tag : String) (index : Binary32) (line : Nat)
    (sites : List Site) :
    (s.markSites gate tag index line sites).tape =
        s.tape.markAll (sites.map fun site =>
          (site.layer, .onQubit gate tag [index] site.qubit line)) ∧
      (s.markSites gate tag index line sites).circuit.coords = s.circuit.coords := by
  unfold markSites Tape.markAll
  induction sites generalizing s with
  | nil => exact ⟨rfl, rfl⟩
  | cons site rest ih =>
      rw [List.foldl_cons, (ih _).1, (ih _).2, List.map_cons, List.foldl_cons]
      refine ⟨?_, rfl⟩
      simp only [tape, mapSchedule]
      rw [Schedule.map_modify (h := (·.mark (.onQubit gate tag [index] site.qubit line))) _ _
        fun l => Layer.bare_mark l _]

end State

theorem changes_applyProducts (line : Nat) (i : Instruction) (products : List Factors) (s : State) :
    Changes ctx (untilFault (products.map (productMove? line i))) none s
      (leave (s.applyProducts line i products)) := by
  induction products generalizing s with
  | nil => exact ⟨rfl, rfl⟩
  | cons factors rest ih =>
      rw [State.applyProducts, State.applyProduct, List.map_cons, productMove?]
      cases Operation.make (Gate.product i.name (factors.map (·.1))) i.tag
        (keptArgs (i.name == Gate.measuringFamily) i) (factors.map (·.2)) line with
      | error e => exact s.changes_report line _
      | ok op => exact (s.changes_place op).trans (ih (s.place op))

theorem changes_buildProducts (line : Nat) (i : Instruction) (s : State) :
    Changes ctx (productMoves line i) none s (leaveSecond (s.buildProducts line i)) := by
  rw [State.buildProducts, productMoves]
  rcases productsAfter false i.targets with ⟨_, products, _ | bad⟩
  · have happlied : Changes ctx _ none s _ := changes_applyProducts line i products s
    dsimp only
    cases h : s.applyProducts line i products <;> rwa [h] at happlied
  · exact s.changes_report line _

theorem applyChunk_of_some {line : Nat} {i : Instruction} {gate : Gate} {chunk : List Target}
    {ms : List Move} (hms : chunkMoves? ctx line i gate chunk = some ms) (s : State) :
    ∃ touched t, s.applyChunk ctx line i gate chunk = .ok (touched, t) ∧
      Changes ctx ms none s t := by
  unfold State.applyChunk
  unfold chunkMoves? at hms
  cases hcontrol : chunk.find? Target.isClassical with
  | some control =>
      simp only [hcontrol] at hms ⊢
      by_cases hpair : max gate.arity 1 = 2
      · rw [if_pos hpair] at hms
        obtain ⟨q, hqubit, rfl⟩ := Option.map_eq_some_iff.1 hms
        simp only [hpair, hqubit]
        exact ⟨_, _, rfl, s.changes_markFeedback ..⟩
      · rw [if_neg hpair] at hms
        cases hms
  | none =>
      simp only [hcontrol] at hms ⊢
      cases hmake : Operation.make gate i.tag (keptArgs gate.isMeasurement i)
        (chunk.filterMap Target.qubit?) line with
      | error e =>
          rw [hmake] at hms
          cases hms
      | ok op =>
          rw [hmake] at hms
          cases hms
          exact ⟨_, _, rfl, s.changes_place op⟩

theorem applyChunk_of_none {line : Nat} {i : Instruction} {gate : Gate} {chunk : List Target}
    (hms : chunkMoves? ctx line i gate chunk = none) (s : State) :
    ∃ p, s.applyChunk ctx line i gate chunk = s.halt line p := by
  unfold State.applyChunk
  unfold chunkMoves? at hms
  cases hcontrol : chunk.find? Target.isClassical with
  | some control =>
      simp only [hcontrol] at hms ⊢
      split
      · rename_i hpair hqubit
        rw [if_pos hpair, hqubit] at hms
        cases hms
      · exact ⟨_, rfl⟩
  | none =>
      simp only [hcontrol] at hms ⊢
      cases hmake : Operation.make gate i.tag (keptArgs gate.isMeasurement i)
        (chunk.filterMap Target.qubit?) line with
      | error e => exact ⟨_, rfl⟩
      | ok op =>
          rw [hmake] at hms
          cases hms

theorem changes_applyChunks (line : Nat) (i : Instruction) (gate : Gate)
    (chunks : List (List Target)) (s : State) :
    Changes ctx (untilFault (chunks.map (chunkMoves? ctx line i gate))).flatten none s
      (leaveSecond (s.applyChunks ctx line i gate chunks)) := by
  induction chunks generalizing s with
  | nil => exact ⟨rfl, rfl⟩
  | cons chunk rest ih =>
      rw [State.applyChunks, List.map_cons]
      cases hms : chunkMoves? ctx line i gate chunk with
      | none =>
          obtain ⟨p, happly⟩ := applyChunk_of_none hms s
          rw [happly]
          exact s.changes_report line p
      | some ms =>
          obtain ⟨touched, t, happly, hchunk⟩ := applyChunk_of_some hms s
          have hboth := hchunk.trans (ih t)
          rw [happly, untilFault, List.flatten_cons]
          cases h : t.applyChunks ctx line i gate rest with
          | error e =>
              rw [h] at hboth
              simp only [bind, Except.bind, h]
              exact hboth
          | ok p =>
              rw [h] at hboth
              simp only [bind, Except.bind, h]
              exact hboth

theorem changes_buildGate (line : Nat) (i : Instruction) (gate : Gate) (swapped : Bool) (s : State) :
    Changes ctx (gateMoves ctx line i gate swapped) none s
      (leaveSecond (s.buildGate ctx line i gate swapped)) := by
  unfold State.buildGate gateMoves
  cases i.targets.findSome? (gateFault? gate i) with
  | some fault => exact s.changes_report line _
  | none =>
      by_cases hlength : i.targets.length % max gate.arity 1 = 0
      · simp only [hlength, Option.isSome_none, ne_eq, not_true_eq_false, or_self, if_false,
          Bool.false_eq_true]
        have happlied : Changes ctx _ none s _ := changes_applyChunks line i gate
          ((chunks (max gate.arity 1) i.targets).map (State.orient swapped)) s
        cases h : s.applyChunks ctx line i gate
          ((chunks (max gate.arity 1) i.targets).map (State.orient swapped)) <;>
          rwa [h] at happlied
      · simp only [hlength, ne_eq, not_false_eq_true, or_true, if_true]
        exact s.changes_report line _

theorem changes_buildNamed (line : Nat) (source : List Char) (i : Instruction) (s : State) :
    Changes ctx (namedMoves ctx line i) none s (leaveSecond (s.buildNamed ctx line source i)) := by
  unfold State.buildNamed namedMoves
  cases ctx.catalog.alias? i.name with
  | none =>
      dsimp only
      cases ctx.catalog.gate? i.name with
      | none => exact s.changes_report line _
      | some gate => exact changes_buildGate line i gate false s
  | some a =>
      cases a with
      | ignored => exact ⟨rfl, rfl⟩
      | renamed canonical swapped =>
          dsimp only
          cases ctx.catalog.gate? canonical with
          | none => exact s.changes_report line _
          | some gate => exact changes_buildGate line i gate swapped s

theorem recordNumber?_lt {n k : Nat} {t : Target} (h : recordNumber? n t = some k) : k < n := by
  cases t <;> simp only [recordNumber?, reduceCtorEq] at h
  split at h
  · rename_i offset hrange
    cases h
    omega
  · cases h

theorem recordNumbers?_lt {n : Nat} {ts : List Target} {ks : List Nat}
    (h : recordNumbers? n ts = some ks) : ∀ k ∈ ks, k < n := by
  induction ts generalizing ks with
  | nil =>
      cases h
      exact fun k hk => absurd hk List.not_mem_nil
  | cons t rest ih =>
      rw [recordNumbers?, Option.bind_eq_some_iff] at h
      obtain ⟨k, hk, h⟩ := h
      obtain ⟨more, hmore, rfl⟩ := Option.map_eq_some_iff.1 h
      intro j hj
      rcases List.mem_cons.1 hj with rfl | hj
      · exact recordNumber?_lt hk
      · exact ih hmore j hj

theorem site?_of_some {s : State} {t : Target} {k : Nat}
    (h : recordNumber? s.record.size t = some k) :
    ∃ site, s.record[k]? = some site ∧ s.site? t = .ok site := by
  have hk : k < s.record.size := recordNumber?_lt h
  cases t <;> simp only [recordNumber?, reduceCtorEq] at h
  rename_i offset
  split at h
  · rename_i hrange
    cases h
    refine ⟨s.record[((s.record.size : Int) + offset).toNat], Array.getElem?_eq_getElem hk, ?_⟩
    simp only [State.site?, hrange, and_self, if_true, Array.getElem?_eq_getElem hk]
  · cases h

theorem site?_of_none {s : State} {t : Target} (h : recordNumber? s.record.size t = none) :
    ∃ p, s.site? t = .error p := by
  cases t with
  | record offset =>
      simp only [recordNumber?] at h
      split at h
      · cases h
      · rename_i hrange
        simp only [State.site?, hrange, if_false]
        exact ⟨_, rfl⟩
  | qubit => exact ⟨_, rfl⟩
  | pauli => exact ⟨_, rfl⟩
  | sweep => exact ⟨_, rfl⟩
  | combiner => exact ⟨_, rfl⟩

theorem sites_of_some {s : State} {ts : List Target} {ks : List Nat}
    (h : recordNumbers? s.record.size ts = some ks) :
    s.sites ts = .ok (ks.filterMap (s.record[·]?)) := by
  induction ts generalizing ks with
  | nil =>
      cases h
      rfl
  | cons t rest ih =>
      rw [recordNumbers?, Option.bind_eq_some_iff] at h
      obtain ⟨k, hk, h⟩ := h
      obtain ⟨more, hmore, rfl⟩ := Option.map_eq_some_iff.1 h
      obtain ⟨site, hsite, hresolved⟩ := site?_of_some hk
      rw [State.sites, hresolved, ih hmore, List.filterMap_cons, hsite]
      rfl

theorem sites_of_none {s : State} {ts : List Target}
    (h : recordNumbers? s.record.size ts = none) : ∃ p, s.sites ts = .error p := by
  induction ts with
  | nil => cases h
  | cons t rest ih =>
      rw [recordNumbers?] at h
      rw [State.sites]
      cases hk : recordNumber? s.record.size t with
      | none =>
          obtain ⟨p, hp⟩ := site?_of_none hk
          exact ⟨p, by rw [hp]; rfl⟩
      | some k =>
          obtain ⟨site, _, hresolved⟩ := site?_of_some hk
          rw [hk, Option.bind_some, Option.map_eq_none_iff] at h
          obtain ⟨p, hp⟩ := ih h
          exact ⟨p, by rw [hresolved, hp]; rfl⟩

theorem convert_zero : (.zero : Binary64).convert .binary32 = .zero := by decide +kernel

theorem markerIndex_detector {s : State} {line : Nat} {i : Instruction}
    (h : i.name = detectorName) :
    s.markerIndex line i =
      .ok (.ofNat .binary32 s.detectors, { s with detectors := s.detectors + 1 }) := by
  rw [State.markerIndex, if_pos h]

theorem markerIndex_observable (s : State) (line : Nat) {i : Instruction}
    (h : i.name = observableName) :
    match observableIndex? i with
    | some v => s.markerIndex line i = .ok (v.convert .binary32, s)
    | none => ∃ p, s.markerIndex line i = s.halt line p := by
  have hname : i.name ≠ detectorName := by
    rw [h]
    decide
  rw [State.markerIndex, if_neg hname, observableIndex?]
  cases i.args.head? with
  | none =>
      dsimp only
      rw [convert_zero]
  | some v =>
      dsimp only
      cases v.isWhole && v.compare? .zero != some .lt with
      | true => rfl
      | false => exact ⟨_, rfl⟩

theorem changes_buildMarker (line : Nat) (source : List Char) (i : Instruction) (s : State)
    (hname : i.name = detectorName ∨ i.name = observableName) :
    Changes ctx (markerMoves s.record.size line i) none s
      (leave (s.buildMarker ctx line source i)) := by
  have hmarked (t : State) (gate : Gate) (index : Binary32) (ks : List Nat) :
      let marked := t.markSites gate i.tag index line (ks.filterMap (t.record[·]?))
      marked.tape = t.tape.markAll (t.tape.marks (some gate) i.tag index line ks) ∧
        marked.circuit.coords = t.circuit.coords := by
    refine ⟨?_, (t.markSites_spec ..).2⟩
    simp only [(t.markSites_spec ..).1, Tape.marks, Option.toList_some, List.flatMap_cons,
      List.flatMap_nil, List.append_nil]
    rfl
  rw [State.buildMarker, markerMoves]
  cases hnumbers : recordNumbers? s.record.size i.targets with
  | none =>
      obtain ⟨p, hp⟩ := sites_of_none hnumbers
      rw [hp]
      exact s.changes_report line p
  | some ks =>
      rw [sites_of_some hnumbers]
      dsimp only
      rcases hname with hname | hname
      · rw [markerIndex_detector hname, if_pos hname]
        simp only [bind, Except.bind, hname]
        cases hgate : ctx.catalog.gate? detectorName with
        | none => exact ⟨by simp only [List.foldl_cons, List.foldl_nil, Tape.move, hgate]; rfl, rfl⟩
        | some gate =>
            have hstep := hmarked { s with detectors := s.detectors + 1 } gate
              (.ofNat .binary32 s.detectors) ks
            refine ⟨?_, hstep.2⟩
            simp only [List.foldl_cons, List.foldl_nil, Tape.move, hgate]
            exact hstep.1
      · have hne : i.name ≠ detectorName := by
          rw [hname]
          decide
        have hindex := markerIndex_observable s line hname
        rw [if_neg hne]
        cases hv : observableIndex? i with
        | none =>
            rw [hv] at hindex
            obtain ⟨p, hp⟩ := hindex
            rw [hp]
            exact s.changes_report line p
        | some v =>
            rw [hv] at hindex
            simp only [hindex, bind, Except.bind, hname, Option.toList_some, List.map_cons,
              List.map_nil]
            cases hgate : ctx.catalog.gate? observableName with
            | none =>
                exact ⟨by simp only [List.foldl_cons, List.foldl_nil, Tape.move, hgate]; rfl, rfl⟩
            | some gate =>
                have hstep := hmarked s gate (v.convert .binary32) ks
                refine ⟨?_, hstep.2⟩
                simp only [List.foldl_cons, List.foldl_nil, Tape.move, hgate]
                exact hstep.1

theorem declare_schedule {c d : Circuit} {q : QubitId} {p : Point} (h : c.declare q p = .ok d) :
    d.schedule = c.schedule := by
  unfold Circuit.declare at h
  split at h
  · split at h
    · cases h
      rfl
    · cases h
  · cases h
    rfl

theorem changes_buildCoordinates (s : State) (line : Nat) (source : List Char) {i : Instruction}
    (hname : i.name = coordinatesName) :
    Changes ctx [] ((declaration? i).bind (accept? s.circuit)) s
      (leaveSecond (s.buildCoordinates line source i)) := by
  unfold State.buildCoordinates
  split
  · rename_i q inverted htargets
    have hdeclaration : declaration? i =
        some (q, ⟨i.args[0]?.getD .zero, i.args[1]?.getD .zero⟩) := by
      simp only [declaration?, htargets, if_pos hname]
    rw [hdeclaration, Option.bind_some, accept?]
    dsimp only
    cases h : s.circuit.declare q ⟨i.args[0]?.getD .zero, i.args[1]?.getD .zero⟩ with
    | ok c =>
        refine ⟨?_, coords_declare h⟩
        simp only [leaveSecond, State.tape, declare_schedule h, List.foldl_nil]
    | error e => exact s.changes_report line _
  · rename_i hother
    have hnone : declaration? i = none := by
      unfold declaration?
      split
      · rename_i htargets
        exact absurd htargets (hother _ _)
      · rfl
    rw [hnone]
    exact s.changes_report line _

theorem instructionMoves_coordinates {ctx : Context} {n line : Nat} {i : Instruction}
    (h : i.name = coordinatesName) : instructionMoves ctx n line i = [] := by
  have htick : i.name ≠ tickName := by
    rw [h]
    decide
  rw [instructionMoves, if_neg htick, if_pos (Or.inl h)]

theorem changes_build (line : Nat) (source : List Char) (i : Instruction) (s : State) :
    Changes ctx (instructionMoves ctx s.record.size line i)
      ((declaration? i).bind (accept? s.circuit)) s (leaveSecond (s.build ctx line source i)) := by
  by_cases hcoordinates : i.name = coordinatesName
  · have htick : i.name ≠ tickName := by
      rw [hcoordinates]
      decide
    rw [instructionMoves_coordinates hcoordinates, State.build, if_neg htick, if_pos hcoordinates]
    exact changes_buildCoordinates s line source hcoordinates
  rw [declaration?_of_name hcoordinates, Option.bind_none, State.build, instructionMoves]
  by_cases htick : i.name = tickName
  · rw [if_pos htick, if_pos htick]
    exact s.changes_tick
  rw [if_neg htick, if_neg htick, if_neg hcoordinates]
  by_cases hpolygon : i.name = polygonName
  · rw [if_pos hpolygon, if_pos (Or.inr hpolygon), State.buildPolygon]
    split
    · exact ⟨rfl, rfl⟩
    · exact s.changes_report line _
  have hneither : ¬(i.name = coordinatesName ∨ i.name = polygonName) :=
    fun h => h.elim hcoordinates hpolygon
  rw [if_neg hpolygon, if_neg hneither]
  by_cases hmarker : i.name = detectorName ∨ i.name = observableName
  · rw [if_pos hmarker, if_pos hmarker]
    have hmarked : Changes ctx _ none s _ := changes_buildMarker line source i s hmarker
    cases h : s.buildMarker ctx line source i <;> rwa [h] at hmarked
  rw [if_neg hmarker, if_neg hmarker]
  by_cases hproduct : i.name ∈ Gate.productFamilies
  · rw [if_pos hproduct, if_pos hproduct]
    exact changes_buildProducts line i s
  · rw [if_neg hproduct, if_neg hproduct]
    exact changes_buildNamed line source i s

theorem changes_buildInstruction (line : Nat) (source : List Char) (i : Instruction) (s : State) :
    Changes ctx (instructionMoves ctx s.record.size line i)
      ((declaration? i).bind (accept? s.circuit)) s
      (leave (s.buildInstruction ctx line source i)) := by
  unfold State.buildInstruction
  split
  · rename_i hcoordinates
    obtain ⟨hname, hlength⟩ := of_decide_eq_true hcoordinates
    rw [instructionMoves_coordinates hname, declaration?_of_length hlength, State.leave_halt]
    exact ⟨rfl, rfl⟩
  · have hbuilt : Changes ctx _ _ s _ := changes_build line source i s
    cases h : s.build ctx line source i with
    | error e =>
        rw [h] at hbuilt
        exact hbuilt
    | ok p =>
        rw [h] at hbuilt
        have hresolved : Changes ctx [] none p.2 _ := p.2.changes_resolve line p.1
        exact ⟨hresolved.tape.trans hbuilt.tape, hresolved.coords.trans hbuilt.coords⟩

theorem moves_of_instruction {a : Act} {line : Nat} {i : Instruction}
    (h : a.instruction? = some (line, i)) (ctx : Context) (n : Nat) :
    a.moves ctx n = instructionMoves ctx n line i := by
  rw [Act.moves, h]

theorem moves_of_none {a : Act} (h : a.instruction? = none) (ctx : Context) (n : Nat) :
    a.moves ctx n = [] := by
  rw [Act.moves, h]

theorem changes_buildLine (line : Nat) (text : List Char) (s : State) :
    Changes ctx ((Act.line line text).moves ctx s.record.size) (s.accepted? (.line line text)) s
      (leave (s.buildLine ctx line text)) := by
  rw [State.buildLine, State.accepted?, Act.declaration?]
  by_cases htrivia : State.isTrivia (Text.trim text) = true
  · have hskipped : (Act.line line text).instruction? = none :=
      Act.instruction?_of_skipped (.inl htrivia)
    rw [moves_of_none hskipped, hskipped, if_pos htrivia]
    exact ⟨rfl, rfl⟩
  by_cases hdirective : Source.isDirective (Text.trim text) = true
  · have hskipped : (Act.line line text).instruction? = none :=
      Act.instruction?_of_skipped (.inr hdirective)
    rw [moves_of_none hskipped, hskipped, if_neg htrivia, if_pos hdirective]
    have hresolved : Changes ctx [] none s _ := s.changes_resolve line .other
    cases h : s.resolve line .other with
    | error e =>
        rw [h] at hresolved
        exact hresolved
    | ok t =>
        rw [h] at hresolved
        have happlied : Changes ctx [] none t _ :=
          t.changes_apply line (Directive.read (Text.trim text))
        simp only [bind, Except.bind, Option.bind_none]
        exact hresolved.trans happlied
  · have hread : (Act.line line text).instruction? = _ :=
      Act.instruction?_of_content (not_or.2 ⟨htrivia, hdirective⟩)
    rw [if_neg htrivia, if_neg hdirective]
    cases h : Instruction.read (Text.trim text) with
    | error fault =>
        rw [h] at hread
        rw [moves_of_none hread, hread]
        exact ⟨rfl, rfl⟩
    | ok i =>
        rw [h] at hread
        have hbuilt : Changes ctx _ _ _ _ :=
          changes_buildInstruction line (Text.trim text) i { s with contentSeen := true }
        rw [moves_of_instruction hread, hread]
        exact ⟨hbuilt.tape, hbuilt.coords⟩

/-- An act makes its moves and enters the declaration that it makes, if the circuit accepts it; it
changes nothing else. -/
theorem changes_after (s : State) (a : Act) :
    Changes ctx (a.moves ctx s.record.size) (s.accepted? a) s (s.after ctx a) := by
  cases a with
  | line number text => exact changes_buildLine number text s
  | structural number => exact s.changes_resolve number .other
  | fault number problem => exact s.changes_report number problem

theorem tape_after (ctx : Context) (s : State) (a : Act) :
    (s.after ctx a).tape = (a.moves ctx s.record.size).foldl (Tape.move ctx) s.tape :=
  (changes_after s a).tape

theorem coords_after (ctx : Context) (s : State) (a : Act) :
    (s.after ctx a).circuit.coords = enter s.circuit.coords (s.accepted? a) :=
  (changes_after s a).coords

end Build

end StimOverlay
