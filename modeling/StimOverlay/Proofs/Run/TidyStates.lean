import StimOverlay.Proofs.Circuit.QubitArena

/-! Tidy states. Text may name every qubit that a state mentions, and its qubits are stored densely.
Each step of a run keeps a state tidy, whether it goes on or halts. -/

namespace StimOverlay

open Numeric

namespace Build

structure Tidy (s : State) : Prop where
  schedule : s.circuit.schedule.Named
  record : ∀ site ∈ s.record.toList, site.qubit ≤ maxQubitId
  arena : Arena s.circuit.qubits

/-- A step that gives a result with property `P`, or halts in a tidy state. -/
def Ends (P : α → Prop) : Step α → Prop
  | .ok a => P a
  | .error h => Tidy h.state

theorem Ends.bind {P : α → Prop} {Q : β → Prop} {x : Step α} {f : α → Step β} (h : Ends P x)
    (hf : ∀ a, P a → Ends Q (f a)) : Ends Q (x >>= f) := by
  cases x with
  | ok a => exact hf a h
  | error e => exact h

theorem Ends.mono {P Q : α → Prop} {x : Step α} (h : Ends P x) (hPQ : ∀ a, P a → Q a) :
    Ends Q x := by
  cases x with
  | ok a => exact hPQ a h
  | error e => exact h

theorem Ends.leave {x : Step State} (h : Ends Tidy x) : Tidy (leave x) := by
  cases x with
  | ok s => exact h
  | error e => exact h

/-- A number that is read is below the bound it is read with. -/
theorem readNat?_lt {bound n : Nat} {text : List Char} (h : readNat? bound text = some n) :
    n < bound := by
  unfold readNat? at h
  dsimp only at h
  split_ifs at h with hdigits hlt
  cases h
  exact hlt

theorem readQubit?_le {text : List Char} {q : QubitId} (h : Directive.readQubit? text = some q) :
    q ≤ maxQubitId := Nat.le_of_lt_succ (readNat?_lt h)

theorem readIds_le {text : List Char} : ∀ q ∈ Directive.readIds text, q ≤ maxQubitId := by
  intro q hq
  obtain ⟨part, -, hread⟩ := List.mem_filterMap.1 hq
  exact readQubit?_le hread

theorem readEdges_le {text : List Char} :
    ∀ edge ∈ Directive.readEdges text, edge.1 ≤ maxQubitId ∧ edge.2 ≤ maxQubitId := by
  intro edge hedge
  obtain ⟨part, -, hread⟩ := List.mem_filterMap.1 hedge
  obtain ⟨⟨first, second⟩, -, hread⟩ := Option.bind_eq_some_iff.1 hread
  obtain ⟨a, ha, hread⟩ := Option.bind_eq_some_iff.1 hread
  obtain ⟨b, hb, hread⟩ := Option.bind_eq_some_iff.1 hread
  cases hread
  exact ⟨readQubit?_le ha, readQubit?_le hb⟩

/-- Text may name the qubits of an outcome. -/
def Outcome.Named : Outcome → Prop
  | .declared q => q ≤ maxQubitId
  | .applied _ targets _ => ∀ q ∈ targets, q ≤ maxQubitId
  | .polygon (some body) => ∀ q ∈ body.corners, q ≤ maxQubitId
  | _ => True

theorem Outcome.named_other : Outcome.Named .other := trivial

variable {s : State}

namespace Tidy

theorem start : Tidy {} where
  schedule l hl := by
    rw [List.mem_singleton.1 hl]
    exact .empty
  record site hsite := by simp at hsite
  arena := arena_empty

theorem report (h : Tidy s) (line : Nat) (p : Problem) : Tidy (s.report line p) :=
  ⟨h.schedule, h.record, h.arena⟩

theorem halt (h : Tidy s) (P : α → Prop) (line : Nat) (p : Problem) : Ends P (s.halt line p) :=
  h.report line p

theorem free (h : Tidy s) (anchor : Anchor) : Tidy { s with anchor } :=
  ⟨h.schedule, h.record, h.arena⟩

theorem mapSchedule (h : Tidy s) {f : Schedule → Schedule} (hf : (f s.circuit.schedule).Named) :
    Tidy (s.mapSchedule f) :=
  ⟨hf, h.record, h.arena⟩

theorem draw (h : Tidy s) {o : Overlay} (ho : ∀ q ∈ o.qubits, q ≤ maxQubitId) : Tidy (s.draw o) :=
  h.mapSchedule (h.schedule.modifyCurrent fun _ hl => hl.draw ho)

theorem place (h : Tidy s) {op : Operation} (hop : ∀ q ∈ op.targets, q ≤ maxQubitId) :
    Tidy (s.place op) := by
  have hplaced : Tidy (s.mapSchedule (·.place op)) := h.mapSchedule (h.schedule.place hop)
  unfold State.place
  dsimp only
  split
  · exact hplaced
  · rename_i q rest htargets
    split_ifs
    · refine ⟨hplaced.schedule, fun site hsite => ?_, hplaced.arena⟩
      rw [Array.toList_push, List.mem_append, List.mem_singleton] at hsite
      rcases hsite with hsite | rfl
      · exact h.record site hsite
      · exact hop q (by rw [htargets]; exact List.mem_cons_self)
    · exact hplaced

theorem describe (h : Tidy s) {q : QubitId} (hq : q ≤ maxQubitId) (d : QubitData) :
    Tidy (s.describe q d) :=
  ⟨h.schedule, h.record, h.arena.modifyQubit hq (fun _ => rfl) fun _ hx =>
    ⟨(hx.pin d.panelX d.panelY).x, (hx.pin d.panelX d.panelY).y⟩⟩

theorem declare (h : Tidy s) {q : QubitId} (hq : q ≤ maxQubitId) {p : Point} {c : Circuit}
    (hc : s.circuit.declare q p = .ok c) : Tidy { s with circuit := c } := by
  have hmoved : Tidy { s with circuit :=
      { s.circuit with coords := s.circuit.coords.insert q p }.modifyQubit q (·.moveTo p) } :=
    ⟨h.schedule, h.record, Arena.modifyQubit (c := { s.circuit with coords := _ }) h.arena hq
      (fun _ => rfl) fun x _ => x.follows_moveTo p⟩
  unfold Circuit.declare at hc
  split at hc
  · split_ifs at hc
    cases hc
    exact hmoved
  · cases hc
    exact hmoved

theorem drawPolygon (h : Tidy s) (headerLine bodyLine : Nat) (madeUp : Bool)
    (style : PolygonStyle) {body : PolygonBody} (hbody : ∀ q ∈ body.corners, q ≤ maxQubitId) :
    Tidy (s.drawPolygon headerLine bodyLine madeUp style body) :=
  h.draw hbody

theorem drawBarePolygon (h : Tidy s) (line : Nat) {body : PolygonBody}
    (hbody : ∀ q ∈ body.corners, q ≤ maxQubitId) : Tidy (s.drawBarePolygon line body) := by
  have hpushed : Tidy { s with headers := s.headers.push ⟨line, body.colour⟩ } :=
    ⟨h.schedule, h.record, h.arena⟩
  unfold State.drawBarePolygon
  dsimp only
  split_ifs
  · exact h.drawPolygon _ _ _ _ hbody
  · exact hpushed.drawPolygon _ _ _ _ hbody

theorem highlightGate (h : Tidy s) (line : Nat) (colour : Option String) (qubits : List QubitId)
    (gate : String) {targets : List QubitId} (htargets : ∀ q ∈ targets, q ≤ maxQubitId)
    (layer : Nat) : Tidy (s.highlightGate line colour qubits gate targets layer) := by
  have hmodify : ∀ {t : State}, Tidy t →
      Tidy (t.mapSchedule (·.modify layer (·.draw (.gateHighlight line gate targets colour)))) :=
    fun ht => ht.mapSchedule (ht.schedule.modify _ fun _ hl => hl.draw htargets)
  unfold State.highlightGate
  dsimp only
  split_ifs
  · exact hmodify h
  · exact hmodify (h.report line _)

theorem resolve (h : Tidy s) (line : Nat) {o : Outcome} (ho : o.Named) :
    Ends Tidy (s.resolve line o) := by
  have hfree := h.free .free
  unfold State.resolve
  split
  · exact hfree.drawBarePolygon line ho
  · exact hfree
  · exact hfree.describe ho _
  · exact hfree.halt _ _ _
  · exact hfree.highlightGate _ _ _ _ ho _
  · exact hfree.halt _ _ _
  · exact hfree.drawPolygon _ _ _ _ ho
  · exact hfree
  · exact hfree.halt _ _ _

theorem requireSheet (h : Tidy s) (line : Nat) (name : String) :
    Ends (fun _ => True) (s.requireSheet line name) := by
  unfold State.requireSheet
  split_ifs
  · trivial
  · exact h.halt _ _ _

theorem declareSheet (h : Tidy s) (line : Nat) (keys : Directive.Keys) :
    Ends Tidy (s.declareSheet line keys) := by
  unfold State.declareSheet
  split
  · exact h.halt _ _ _
  · rename_i name hname
    split_ifs
    · exact h.halt _ _ _
    · exact h.halt _ _ _
    · have hadded : ∀ sheet, Tidy { s with circuit := s.circuit.addSheet sheet } :=
        fun _ => ⟨h.schedule, h.record, h.arena⟩
      exact (hadded _).draw fun q hq => absurd hq List.not_mem_nil

theorem applyQubit (h : Tidy s) (line : Nat) (keys : Directive.Keys) :
    Ends Tidy (s.applyQubit line keys) := by
  unfold State.applyQubit
  dsimp only
  obtain _ | sheet := (QubitData.ofKeys keys).sheet
  on_goal 2 => refine (h.requireSheet line sheet).bind fun _ _ => ?_
  all_goals
    split_ifs
    · cases hread : readNat? (maxQubitId + 1) ((keys.get? "Q").getD "").toList with
      | none => exact h.halt _ _ _
      | some q => exact h.describe (Nat.le_of_lt_succ (readNat?_lt hread)) _
    · exact h.free _

theorem applyConnections (h : Tidy s) (line : Nat) (keys : Directive.Keys) :
    Ends Tidy (s.applyConnections line keys) := by
  refine (h.requireSheet line _).bind fun _ _ => h.draw fun q hq => ?_
  obtain ⟨edge, hedge, hq⟩ := List.mem_flatMap.1 hq
  have hnamed : edge.1 ≤ maxQubitId ∧ edge.2 ≤ maxQubitId := by
    cases hvalue : keys.get? "EDGES" with
    | none => simp [hvalue] at hedge
    | some value =>
        rw [hvalue] at hedge
        exact readEdges_le edge hedge
  rcases List.mem_pair.1 hq with rfl | rfl
  · exact hnamed.1
  · exact hnamed.2

theorem applyHighlight (h : Tidy s) (line : Nat) (keys : Directive.Keys) :
    Tidy (s.applyHighlight line keys) := by
  unfold State.applyHighlight
  dsimp only
  split_ifs
  · exact h.free _
  · refine h.draw fun q hq => ?_
    rw [Overlay.qubits] at hq
    cases hvalue : keys.get? "QUBITS" with
    | none => simp [hvalue] at hq
    | some value =>
        rw [hvalue] at hq
        exact readIds_le q hq

theorem applyPolygon (h : Tidy s) (line : Nat) (keys : Directive.Keys) :
    Ends Tidy (s.applyPolygon line keys) :=
  (h.requireSheet line _).bind fun _ _ => h.free _

theorem apply (h : Tidy s) (ctx : Context) (line : Nat) (d : Directive) :
    Ends Tidy (s.apply ctx line d) := by
  unfold State.apply
  split
  · exact h.declareSheet line _
  · exact h.applyQubit line _
  · exact h.applyConnections line _
  · exact h.applyHighlight line _
  · exact h.applyPolygon line _
  · unfold State.judge
    split_ifs
    · exact h.halt _ _ _
    · exact h.report _ _

theorem markAt (h : Tidy s) (k : Nat) {op : Operation} (hop : ∀ q ∈ op.targets, q ≤ maxQubitId) :
    Tidy (s.mapSchedule (·.modify k (·.mark op))) :=
  h.mapSchedule (h.schedule.modify k fun _ hl => hl.mark hop)

theorem applyProducts (h : Tidy s) (line : Nat) (i : Instruction) {products : List Factors}
    (hproducts : ∀ factors ∈ products, ∀ f ∈ factors, f.2 ≤ maxQubitId) :
    Ends Tidy (s.applyProducts line i products) := by
  induction products generalizing s with
  | nil => exact h
  | cons factors rest ih =>
      obtain ⟨hfactors, hrest⟩ := List.forall_mem_cons.1 hproducts
      rw [State.applyProducts]
      refine Ends.bind (P := Tidy) ?_ fun t ht => ih ht hrest
      unfold State.applyProduct
      dsimp only
      cases hmake : Operation.make (.product i.name (factors.map (·.1))) i.tag
        (keptArgs (i.name == Gate.measuringFamily) i) (factors.map (·.2)) line with
      | error e => exact h.halt _ _ _
      | ok op =>
          refine h.place fun q hq => ?_
          rw [(make_eq_ok hmake).2.2.2] at hq
          obtain ⟨f, hf, rfl⟩ := List.mem_map.1 hq
          exact hfactors f hf

/-- The result of an instruction: what it turned out to be, and the state behind it. -/
def Result (r : Outcome × State) : Prop := r.1.Named ∧ Tidy r.2

theorem buildProducts (h : Tidy s) (line : Nat) {i : Instruction} (hrange : InRange i) :
    Ends Result (s.buildProducts line i) := by
  have hqubit := (productsAfter_qubit false i.targets).2
  unfold State.buildProducts
  rcases hsplit : productsAfter false i.targets with ⟨first, products, _ | bad⟩
  · rw [hsplit] at hqubit
    have hnamed : ∀ factors ∈ products, ∀ f ∈ factors, f.2 ≤ maxQubitId := by
      intro factors hfactors f hf
      obtain ⟨t, ht, hq⟩ := hqubit factors hfactors f hf
      exact hrange t ht _ hq
    refine (h.applyProducts line i hnamed).bind fun t ht => ⟨fun q hq => ?_, ht⟩
    obtain ⟨factors, hfactors, hq⟩ := List.mem_flatMap.1 hq
    obtain ⟨f, hf, rfl⟩ := List.mem_map.1 hq
    exact hnamed factors hfactors f hf
  · exact h.halt _ _ _

/-- The qubits that a gate touched, and the state behind it. -/
def Touched (r : List QubitId × State) : Prop := (∀ q ∈ r.1, q ≤ maxQubitId) ∧ Tidy r.2

theorem applyChunk (h : Tidy s) (ctx : Context) (line : Nat) (i : Instruction) (gate : Gate)
    {chunk : List Target} (hchunk : ∀ t ∈ chunk, ∀ q, t.qubit? = some q → q ≤ maxQubitId) :
    Ends Touched (s.applyChunk ctx line i gate chunk) := by
  unfold State.applyChunk
  split
  · split
    · rename_i q harity hq
      refine ⟨fun q hq => absurd hq List.not_mem_nil, ?_⟩
      obtain ⟨t, ht, hq⟩ := List.exists_of_findSome?_eq_some hq
      unfold State.markFeedback
      dsimp only
      split
      · exact h.report _ _
      · refine report (h.mapSchedule (h.schedule.modifyCurrent fun _ hl => hl.mark ?_)) _ _
        intro r hr
        rw [List.mem_singleton.1 hr]
        exact hchunk t ht q hq
    · exact h.halt _ _ _
  · dsimp only
    split
    · exact h.halt _ _ _
    · rename_i op hmake
      have hop : ∀ q ∈ op.targets, q ≤ maxQubitId := by
        intro q hq
        rw [(make_eq_ok hmake).2.2.2] at hq
        obtain ⟨t, ht, hq⟩ := List.mem_filterMap.1 hq
        exact hchunk t ht q hq
      exact ⟨hop, h.place hop⟩

theorem applyChunks (h : Tidy s) (ctx : Context) (line : Nat) (i : Instruction) (gate : Gate)
    {chunks : List (List Target)}
    (hchunks : ∀ chunk ∈ chunks, ∀ t ∈ chunk, ∀ q, t.qubit? = some q → q ≤ maxQubitId) :
    Ends Touched (s.applyChunks ctx line i gate chunks) := by
  induction chunks generalizing s with
  | nil => exact ⟨fun q hq => absurd hq List.not_mem_nil, h⟩
  | cons chunk rest ih =>
      obtain ⟨hchunk, hrest⟩ := List.forall_mem_cons.1 hchunks
      rw [State.applyChunks]
      refine (h.applyChunk ctx line i gate hchunk).bind fun touched ht => ?_
      refine (ih ht.2 hrest).bind fun more hmore => ⟨fun q hq => ?_, hmore.2⟩
      exact (List.mem_append.1 hq).elim (ht.1 q) (hmore.1 q)

theorem buildGate (h : Tidy s) (ctx : Context) (line : Nat) {i : Instruction}
    (hrange : InRange i) (gate : Gate) (swapped : Bool) :
    Ends Result (s.buildGate ctx line i gate swapped) := by
  unfold State.buildGate
  split
  · exact h.halt _ _ _
  · dsimp only
    split_ifs
    · exact h.halt _ _ _
    · refine (h.applyChunks ctx line i gate fun chunk hchunk t ht q hq => ?_).bind fun r hr => ?_
      · obtain ⟨whole, hwhole, rfl⟩ := List.mem_map.1 hchunk
        exact hrange t (mem_of_mem_chunks hwhole ((orient_perm swapped whole).mem_iff.1 ht)) q hq
      · refine ⟨?_, hr.2⟩
        dsimp only
        split_ifs
        · trivial
        · exact hr.1

theorem buildNamed (h : Tidy s) (ctx : Context) (line : Nat) (source : List Char)
    {i : Instruction} (hrange : InRange i) : Ends Result (s.buildNamed ctx line source i) := by
  have hunlisted : Ends Result (.ok (.other, s.report line (.gateUnknown (String.ofList source)))) :=
    ⟨trivial, h.report _ _⟩
  unfold State.buildNamed
  cases ctx.catalog.alias? i.name with
  | none =>
      dsimp only
      cases ctx.catalog.gate? i.name with
      | none => exact hunlisted
      | some gate => exact h.buildGate ctx line hrange _ _
  | some a =>
      cases a with
      | ignored => exact ⟨trivial, h⟩
      | renamed canonical swapped =>
          dsimp only
          cases ctx.catalog.gate? canonical with
          | none => exact hunlisted
          | some gate => exact h.buildGate ctx line hrange _ _

theorem buildCoordinates (h : Tidy s) (line : Nat) (source : List Char) {i : Instruction}
    (hrange : InRange i) : Ends Result (s.buildCoordinates line source i) := by
  unfold State.buildCoordinates
  split
  · rename_i q inverted htargets
    have hq : q ≤ maxQubitId := hrange (.qubit q inverted) (by simp [htargets]) q rfl
    dsimp only
    split
    · rename_i c hc
      exact ⟨hq, h.declare hq hc⟩
    · exact h.halt _ _ _
  · exact h.halt _ _ _

theorem corners?_le {ts : List Target} {corners : List QubitId} (h : corners? ts = some corners)
    (hrange : ∀ t ∈ ts, ∀ q, t.qubit? = some q → q ≤ maxQubitId) :
    ∀ q ∈ corners, q ≤ maxQubitId := by
  induction ts generalizing corners with
  | nil =>
      cases h
      exact fun q hq => absurd hq List.not_mem_nil
  | cons t rest ih =>
      obtain ⟨ht, hrest⟩ := List.forall_mem_cons.1 hrange
      cases t with
      | qubit r inverted =>
          obtain ⟨more, hmore, rfl⟩ := Option.map_eq_some_iff.1 h
          exact List.forall_mem_cons.2 ⟨ht r rfl, ih hmore hrest⟩
      | combiner => exact ih h hrest
      | _ => cases h

theorem buildPolygon (h : Tidy s) (line : Nat) {i : Instruction} (hrange : InRange i) :
    Ends Result (s.buildPolygon line i) := by
  unfold State.buildPolygon
  split
  · rename_i corners hcorners
    refine ⟨?_, h⟩
    unfold PolygonBody.ofCorners?
    split_ifs
    · trivial
    · exact corners?_le hcorners hrange
  · exact h.halt _ _ _

theorem markSites (h : Tidy s) (gate : Gate) (tag : String) (index : Binary32) (line : Nat)
    {sites : List Site} (hsites : ∀ site ∈ sites, site.qubit ≤ maxQubitId) :
    Tidy (s.markSites gate tag index line sites) := by
  unfold State.markSites
  induction sites generalizing s with
  | nil => exact h
  | cons site rest ih =>
      obtain ⟨hsite, hrest⟩ := List.forall_mem_cons.1 hsites
      refine ih (h.markAt _ fun q hq => ?_) hrest
      rwa [List.mem_singleton.1 hq]

theorem site_le (h : Tidy s) {t : Target} {site : Site} (hsite : s.site? t = .ok site) :
    site.qubit ≤ maxQubitId := by
  cases t with
  | record offset =>
      rw [State.site?] at hsite
      split at hsite
      · rename_i found hfound
        cases hsite
        split_ifs at hfound
        exact h.record site (Array.mem_toList_iff.2 (Array.mem_of_getElem? hfound))
      · cases hsite
  | _ => cases hsite

theorem sites_le (h : Tidy s) {ts : List Target} {sites : List Site} (hsites : s.sites ts = .ok sites) :
    ∀ site ∈ sites, site.qubit ≤ maxQubitId := by
  induction ts generalizing sites with
  | nil =>
      cases hsites
      exact fun site hsite => absurd hsite List.not_mem_nil
  | cons t rest ih =>
      rw [State.sites] at hsites
      cases hsite : s.site? t with
      | error e =>
          rw [hsite] at hsites
          cases hsites
      | ok site =>
          cases hrest : s.sites rest with
          | error e =>
              rw [hsite, hrest] at hsites
              cases hsites
          | ok more =>
              rw [hsite, hrest] at hsites
              cases hsites
              exact List.forall_mem_cons.2 ⟨h.site_le hsite, ih hrest⟩

theorem buildMarker (h : Tidy s) (ctx : Context) (line : Nat) (source : List Char)
    (i : Instruction) : Ends Tidy (s.buildMarker ctx line source i) := by
  unfold State.buildMarker
  split
  · exact h.report _ _
  · rename_i sites hsites
    have hnamed := h.sites_le hsites
    refine Ends.bind (P := fun r => Tidy r.2) ?_ fun ⟨index, t⟩ ht => ?_
    · unfold State.markerIndex
      split_ifs
      · exact ⟨h.schedule, h.record, h.arena⟩
      · split
        · exact h
        · split_ifs
          · exact h
          · exact h.halt _ _ _
    · dsimp only
      split
      · exact Tidy.report ht _ _
      · exact Tidy.markSites ht _ _ _ _ hnamed

theorem build (h : Tidy s) (ctx : Context) (line : Nat) (source : List Char) {i : Instruction}
    (hrange : InRange i) : Ends Result (s.build ctx line source i) := by
  unfold State.build
  split_ifs
  · have hadvanced : Tidy (s.mapSchedule (·.advance .empty)) :=
      h.mapSchedule (h.schedule.advance .empty)
    exact ⟨trivial, hadvanced⟩
  · exact h.buildCoordinates line source hrange
  · exact h.buildPolygon line hrange
  · have hmarker := h.buildMarker ctx line source i
    cases hbuilt : s.buildMarker ctx line source i with
    | ok t =>
        rw [hbuilt] at hmarker
        exact ⟨trivial, hmarker⟩
    | error e =>
        rw [hbuilt] at hmarker
        exact hmarker
  · exact h.buildProducts line hrange
  · exact h.buildNamed ctx line source hrange

theorem buildInstruction (h : Tidy s) (ctx : Context) (line : Nat) (source : List Char)
    {i : Instruction} (hrange : InRange i) : Ends Tidy (s.buildInstruction ctx line source i) := by
  unfold State.buildInstruction
  split
  · exact (h.free .free).halt _ _ _
  · exact (h.build ctx line source hrange).bind fun r hr => hr.2.resolve line hr.1

theorem buildLine (h : Tidy s) (ctx : Context) (line : Nat) (text : List Char) :
    Ends Tidy (s.buildLine ctx line text) := by
  unfold State.buildLine
  dsimp only
  split_ifs
  · exact h
  · exact (h.resolve line Outcome.named_other).bind fun t ht => ht.apply ctx line _
  · split
    · exact h.halt _ _ _
    · rename_i i hread
      have hseen : Tidy { s with contentSeen := true } := ⟨h.schedule, h.record, h.arena⟩
      exact hseen.buildInstruction ctx line _ (inRange_of_read hread)

/-- Every act leaves a tidy state behind. -/
theorem after (h : Tidy s) (ctx : Context) (a : Act) : Tidy (s.after ctx a) := by
  cases a with
  | line number text => exact (h.buildLine ctx number text).leave
  | structural number => exact (h.resolve number Outcome.named_other).leave
  | fault number problem => exact h.report _ _

end Tidy

theorem tidy_stateAfter (ctx : Context) (acts : List Act) : Tidy (stateAfter ctx acts) :=
  stateAfter_induction (P := fun _ s => Tidy s) .start (fun _ a _ h => h.after ctx a) acts

end Build

end StimOverlay
