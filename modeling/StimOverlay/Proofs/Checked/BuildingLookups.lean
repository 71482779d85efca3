import StimOverlay.Proofs.Block.UnrolledRepeats
import StimOverlay.Proofs.Record.RunRecord

/-! Checked building. Lookups by position are done here one by one: the holder of a claimed qubit, the
site of a recorded measurement, the layer that a mark or a highlight is put on. A lookup out of range
ends everything. It never happens: layers only claim positions that they have, and the record only
knows layers that are there. -/

namespace StimOverlay

open Build Numeric

namespace Checked

/-- A step that looks something up; `none` stands for a lookup out of range. -/
abbrev Step := ExceptT Halted Option

/-- A step that looks nothing up. -/
def plain (x : Build.Step α) : Step α := ExceptT.mk (some x)

/-- What is looked up. -/
def found (x : Option α) : Step α := ExceptT.mk (x.map .ok)

/-- Steps in sequence look nothing up out of range if the second does not behind the first. -/
theorem bind_eq_plain {x : Step α} {y : Build.Step α} {f : α → Step β} {g : α → Build.Step β}
    (hx : x = plain y) (hf : ∀ a, y = .ok a → f a = plain (g a)) : (x >>= f) = plain (y >>= g) := by
  rw [hx]
  cases y with
  | error e => rfl
  | ok a => exact hf a rfl

/-- Whether `op` cannot join the operation that has claimed `q`, which is looked up. -/
def blocks (l : Layer) (op : Operation) (q : QubitId) : Option Bool :=
  match l.claims[q]? with
  | none => some false
  | some k => l.operations[k]?.map fun holder => op.isMeasurement || !holder.sameAction op

/-- The first target of `op` that the layer cannot accept. -/
def collision? (l : Layer) (op : Operation) : Option (Option QubitId) :=
  op.targets.findM? (blocks l op)

def put (l : Layer) (op : Operation) : Option (Except Collision Layer) :=
  if op.gate.isMarker then some (.ok (l.mark op))
  else (collision? l op).map fun
    | some qubit => .error ⟨qubit, op⟩
    | none => .ok (l.insert op)

/-- Places an operation in the current layer, or in a new one when it collides there. -/
def placeIn (s : Schedule) (op : Operation) : Option Schedule :=
  (put s.current op).map fun
    | .ok l => { s with current := l }
    | .error c => s.advance (.startingWith c.operation)

/-- Changes the layer at position `k`, which is looked up. -/
def modify (s : Schedule) (k : Nat) (f : Layer → Layer) : Option Schedule :=
  (s.get? k).map fun _ => s.modify k f

/-- Places an operation and records its measurement. -/
def place (s : State) (op : Operation) : Option State :=
  (placeIn s.circuit.schedule op).map fun schedule =>
    let placed := s.mapSchedule fun _ => schedule
    match op.targets with
    | [] => placed
    | q :: _ =>
        if op.isMeasurement then { placed with record := placed.record.push ⟨placed.layer, q⟩ }
        else placed

def applyProducts (s : State) (line : Nat) (i : Instruction) : List Factors → Step State
  | [] => pure s
  | factors :: rest =>
      match Operation.make (.product i.name (factors.map (·.1))) i.tag
        (keptArgs (i.name == Gate.measuringFamily) i) (factors.map (·.2)) line with
      | .error e => plain (s.halt line (.repeatedQubit e))
      | .ok op => do
          let s ← found (place s op)
          applyProducts s line i rest

def buildProducts (s : State) (line : Nat) (i : Instruction) : Step (Outcome × State) := do
  let (_, products, bad) := productsAfter false i.targets
  match bad with
  | some t => plain (s.halt line (.instruction (.badTarget t.text)))
  | none =>
      let s ← applyProducts s line i products
      pure (.applied i.name (products.flatMap (·.map (·.2))) s.layer, s)

/-- Applies a gate to one chunk of targets. Only a chunk of qubits needs a lookup. -/
def applyChunk (s : State) (ctx : Context) (line : Nat) (i : Instruction) (gate : Gate)
    (chunk : List Target) : Step (List QubitId × State) :=
  match chunk.find? Target.isClassical with
  | some _ => plain (s.applyChunk ctx line i gate chunk)
  | none =>
      match Operation.make gate i.tag (keptArgs gate.isMeasurement i)
        (chunk.filterMap Target.qubit?) line with
      | .error e => plain (s.halt line (.repeatedQubit e))
      | .ok op => do
          let s ← found (place s op)
          pure (op.targets, s)

def applyChunks (s : State) (ctx : Context) (line : Nat) (i : Instruction) (gate : Gate) :
    List (List Target) → Step (List QubitId × State)
  | [] => pure ([], s)
  | chunk :: rest => do
      let (touched, s) ← applyChunk s ctx line i gate chunk
      let (more, s) ← applyChunks s ctx line i gate rest
      pure (touched ++ more, s)

def buildGate (s : State) (ctx : Context) (line : Nat) (i : Instruction) (gate : Gate)
    (swapped : Bool) : Step (Outcome × State) :=
  match i.targets.findSome? (gateFault? gate i) with
  | some fault => plain (s.halt line (.instruction fault))
  | none =>
      let arity := max gate.arity 1
      if i.targets.length % arity ≠ 0 then
        plain (s.halt line (.targetCount gate.name gate.arity i.targets.length))
      else do
        let (touched, s) ← applyChunks s ctx line i gate
          ((chunks arity i.targets).map (State.orient swapped))
        pure (if touched.isEmpty then .other else .applied gate.name touched s.layer, s)

def buildNamed (s : State) (ctx : Context) (line : Nat) (source : List Char) (i : Instruction) :
    Step (Outcome × State) :=
  let (canonical, swapped) := match ctx.catalog.alias? i.name with
    | some (.renamed canonical swapped) => (some canonical, swapped)
    | some .ignored => (none, false)
    | none => (some i.name, false)
  match canonical with
  | none => pure (.other, s)
  | some name =>
      match ctx.catalog.gate? name with
      | some gate => buildGate s ctx line i gate swapped
      | none => pure (.other, s.report line (.gateUnknown (String.ofList source)))

/-- The site that a target refers to, which is looked up once the target is found to be in range. -/
def site? (s : State) : Target → Option (Except Problem Site)
  | .record offset =>
      let position := (s.record.size : Int) + offset
      if offset < 0 ∧ 0 ≤ position then s.record[position.toNat]?.map .ok
      else some (.error (.recordRange (Target.record offset).text s.record.size))
  | t => some (.error (.recordTarget t.text))

def sites (s : State) : List Target → Option (Except Problem (List Site))
  | [] => some (.ok [])
  | t :: rest => do
      match ← site? s t with
      | .error p => some (.error p)
      | .ok site => (sites s rest).map fun more => more.map (site :: ·)

/-- Puts a marker on the layer of each site, which is looked up. -/
def markSites (s : State) (gate : Gate) (tag : String) (index : Binary32) (line : Nat)
    (sites : List Site) : Option State :=
  sites.foldlM (fun s site =>
    (modify s.circuit.schedule site.layer (·.mark (.onQubit gate tag [index] site.qubit line))).map
      fun schedule => s.mapSchedule fun _ => schedule) s

def buildMarker (s : State) (ctx : Context) (line : Nat) (source : List Char) (i : Instruction) :
    Step State := do
  match ← found (sites s i.targets) with
  | .error p => pure (s.report line p)
  | .ok sites =>
      let (index, s) ← plain (s.markerIndex line i)
      match ctx.catalog.gate? i.name with
      | none => pure (s.report line (.gateUnknown (String.ofList source)))
      | some gate => found (markSites s gate i.tag index line sites)

def build (s : State) (ctx : Context) (line : Nat) (source : List Char) (i : Instruction) :
    Step (Outcome × State) :=
  if i.name = tickName ∨ i.name = coordinatesName ∨ i.name = polygonName then
    plain (s.build ctx line source i)
  else if i.name = detectorName ∨ i.name = observableName then do
    let s ← buildMarker s ctx line source i
    pure (.other, s)
  else if i.name ∈ Gate.productFamilies then buildProducts s line i
  else buildNamed s ctx line source i

/-- Highlights an applied gate on its layer, which is looked up. -/
def highlightGate (s : State) (line : Nat) (colour : Option String) (qubits : List QubitId)
    (gate : String) (targets : List QubitId) (layer : Nat) : Option State :=
  let s := if qubits.all targets.contains then s else s.report line (.highlightOutside gate)
  (modify s.circuit.schedule layer (·.draw (.gateHighlight line gate targets colour))).map
    fun schedule => s.mapSchedule fun _ => schedule

def resolve (s : State) (line : Nat) (o : Outcome) : Step State :=
  match s.anchor, o with
  | .gate start colour qubits, .applied gate targets layer =>
      found (highlightGate { s with anchor := .free } start colour qubits gate targets layer)
  | _, _ => plain (s.resolve line o)

def buildInstruction (s : State) (ctx : Context) (line : Nat) (source : List Char)
    (i : Instruction) : Step State :=
  match s.anchor, decide (i.name = coordinatesName ∧ i.targets.length ≠ 1) with
  | .coordinates start _, true => plain ({ s with anchor := .free }.halt start .qubitTargetCount)
  | _, _ => do
      let (outcome, s) ← build s ctx line source i
      resolve s line outcome

def buildLine (s : State) (ctx : Context) (line : Nat) (text : List Char) : Step State :=
  let source := Text.trim text
  if State.isTrivia source then pure s
  else if Source.isDirective source then do
    let s ← resolve s line .other
    plain (s.apply ctx line (Directive.read source))
  else match Instruction.read source with
    | .error fault => plain (s.halt line (.instruction fault))
    | .ok i => buildInstruction { s with contentSeen := true } ctx line source i

def perform (ctx : Context) (s : State) : Act → Step State
  | .line number text => buildLine s ctx number text
  | .structural number => resolve s number .other
  | .fault number problem => plain (s.halt number problem)

/-- Performs the acts of the given lines up to the first that halts. -/
def runLines (ctx : Context) (lines : List (List Char)) : Step State :=
  (Block.actsOf (Block.ofLines lines) ++ [Act.structural lines.length]).foldlM (perform ctx) {}

def parse (ctx : Context) (text : String) : Option Parsed :=
  let lines := Source.normalize text.toList
  (runLines ctx lines).run.map fun s => .ofState lines (leave s)

end Checked

namespace Layer

/-- The layer claims only positions of operations that it has. -/
def Indexed (l : Layer) : Prop :=
  ∀ (q : QubitId) (k : Nat), l.claims[q]? = some k → k < l.operations.size

theorem indexed_empty : Layer.empty.Indexed := fun q k h => by simp [Layer.empty] at h

theorem Indexed.insert {l : Layer} (h : l.Indexed) (op : Operation) : (l.insert op).Indexed := by
  intro q k hk
  change (claim l.claims l.operations.size op.targets)[q]? = some k at hk
  change k < (l.operations.push op).size
  rw [getElem?_claim] at hk
  rw [Array.size_push]
  rcases Option.or_eq_some_iff.1 hk with hk | ⟨-, hk⟩
  · exact Nat.lt_succ_of_lt (h q k hk)
  · split_ifs at hk
    cases hk
    exact Nat.lt_succ_self _

end Layer

namespace Schedule

theorem exists_get? {s : Schedule} {k : Nat} (hk : k < s.size) : ∃ l, s.get? k = some l := by
  unfold get?
  split_ifs with hlast
  · exact ⟨_, rfl⟩
  · refine ⟨_, Array.getElem?_eq_getElem ?_⟩
    exact Nat.lt_of_le_of_ne (Nat.le_of_lt_succ hk) hlast

theorem indexed_modify {s : Schedule} (h : s.current.Indexed) (k : Nat) (op : Operation) :
    (s.modify k (·.mark op)).current.Indexed := by
  unfold modify
  split_ifs
  · exact h
  · exact h

theorem indexed_place {s : Schedule} (h : s.current.Indexed) (op : Operation) :
    (s.place op).current.Indexed := by
  unfold place Layer.put
  split_ifs
  · exact h
  · cases s.current.collision? op with
    | none => exact h.insert op
    | some q => exact Layer.indexed_empty.insert op

theorem size_le_size_place (s : Schedule) (op : Operation) : s.size ≤ (s.place op).size := by
  unfold place
  cases s.current.put op with
  | ok l => exact Nat.le_refl _
  | error c =>
      change s.finished.size + 1 ≤ (s.finished.push s.current).size + 1
      rw [Array.size_push]
      exact Nat.le_succ _

end Schedule

namespace Build

/-- What is looked up on a tape is there. -/
structure Tape.Bounded (t : Tape) : Prop where
  indexed : t.schedule.current.Indexed
  sites : ∀ site ∈ t.record.toList, site.layer < t.schedule.size

namespace Tape.Bounded

variable {t : Tape}

theorem start : ({} : Tape).Bounded where
  indexed := Layer.indexed_empty
  sites site h := by simp at h

theorem place (h : t.Bounded) (op : Operation) : (t.place op).Bounded where
  indexed := Schedule.indexed_place h.indexed op
  sites site hsite := by
    have hold : site ∈ t.record.toList → site.layer < (t.schedule.place op).size :=
      fun hmem => Nat.lt_of_lt_of_le (h.sites site hmem) (Schedule.size_le_size_place _ _)
    change site ∈ Array.toList (match op.targets with
      | [] => t.record
      | q :: _ => if op.isMeasurement then t.record.push ⟨(t.schedule.place op).position, q⟩
        else t.record) at hsite
    split at hsite
    · exact hold hsite
    · split_ifs at hsite
      · rw [Array.toList_push, List.mem_append, List.mem_singleton] at hsite
        rcases hsite with hsite | rfl
        · exact hold hsite
        · exact Schedule.position_lt_size _
      · exact hold hsite

theorem markAll (h : t.Bounded) (marks : List (Nat × Operation)) : (t.markAll marks).Bounded := by
  have hkept : (t.markAll marks).schedule.current.Indexed ∧
      (t.markAll marks).schedule.size = t.schedule.size := by
    refine Tape.markAll_induction (P := fun s => s.current.Indexed ∧ s.size = t.schedule.size)
      ⟨h.indexed, rfl⟩ fun e _ s hs => ?_
    exact ⟨Schedule.indexed_modify hs.1 e.1 e.2, (Schedule.size_modify s e.1 _).trans hs.2⟩
  exact ⟨hkept.1, fun site hsite => Nat.lt_of_lt_of_eq (h.sites site hsite) hkept.2.symm⟩

/-- Every move keeps what is looked up in range. -/
theorem move (h : t.Bounded) (ctx : Context) (m : Move) : (t.move ctx m).Bounded := by
  cases m with
  | tick =>
      refine ⟨Layer.indexed_empty, fun site hsite => ?_⟩
      have hlt : site.layer < t.schedule.finished.size + 1 := h.sites site hsite
      change site.layer < (t.schedule.finished.push t.schedule.current).size + 1
      rw [Array.size_push]
      exact Nat.lt_succ_of_lt hlt
  | place op => exact h.place op
  | mark op => exact ⟨h.indexed, h.sites⟩
  | detector tag line numbers =>
      have hmarked := h.markAll (t.marks (ctx.catalog.gate? detectorName) tag
        (.ofNat .binary32 t.detectors) line numbers)
      exact ⟨hmarked.indexed, hmarked.sites⟩
  | observable index tag line numbers => exact h.markAll _

theorem foldl (h : t.Bounded) (ctx : Context) (ms : List Move) :
    (ms.foldl (Tape.move ctx) t).Bounded := by
  induction ms generalizing t with
  | nil => exact h
  | cons m rest ih => exact ih (h.move ctx m)

end Tape.Bounded

theorem Tape.Bounded.layer_lt {s : State} (h : s.tape.Bounded) :
    ∀ site ∈ s.record.toList, site.layer < s.circuit.schedule.size := by
  intro site hsite
  have hlt := h.sites site hsite
  rwa [State.tape, ← Schedule.length_toList, Schedule.toList_map, List.length_map,
    Schedule.length_toList] at hlt

end Build

namespace Checked

theorem blocks_eq {l : Layer} (h : l.Indexed) (op : Operation) (q : QubitId) :
    blocks l op q = some (l.blocks op q) := by
  unfold blocks Layer.blocks Layer.operationAt?
  cases hq : l.claims[q]? with
  | none => rfl
  | some k =>
      simp only [Option.bind_some, Array.getElem?_eq_getElem (h q k hq), Option.map_some]

theorem collision?_eq {l : Layer} (h : l.Indexed) (op : Operation) :
    collision? l op = some (l.collision? op) := by
  have hblocks : blocks l op = fun q => pure (l.blocks op q) := funext (blocks_eq h op)
  rw [collision?, hblocks]
  exact List.findM?_pure _ _

theorem put_eq {l : Layer} (h : l.Indexed) (op : Operation) : put l op = some (l.put op) := by
  unfold put Layer.put
  split_ifs
  · rfl
  · rw [collision?_eq h]
    cases l.collision? op <;> rfl

theorem placeIn_eq {s : Schedule} (h : s.current.Indexed) (op : Operation) :
    placeIn s op = some (s.place op) := by
  rw [placeIn, put_eq h, Schedule.place]
  cases s.current.put op <;> rfl

theorem modify_eq {s : Schedule} {k : Nat} (hk : k < s.size) (f : Layer → Layer) :
    modify s k f = some (s.modify k f) := by
  obtain ⟨l, hl⟩ := Schedule.exists_get? hk
  rw [modify, hl]
  rfl

variable {s : State}

theorem place_eq (h : s.tape.Bounded) (op : Operation) : place s op = some (s.place op) := by
  rw [place, placeIn_eq (s := s.circuit.schedule) h.indexed]
  rfl

theorem bounded_place (h : s.tape.Bounded) (op : Operation) : (s.place op).tape.Bounded := by
  rw [State.tape_place]
  exact h.place op

theorem applyProducts_eq (h : s.tape.Bounded) (line : Nat) (i : Instruction)
    (products : List Factors) :
    applyProducts s line i products = plain (s.applyProducts line i products) := by
  induction products generalizing s with
  | nil => rfl
  | cons factors rest ih =>
      rw [applyProducts, State.applyProducts, State.applyProduct]
      cases Operation.make (.product i.name (factors.map (·.1))) i.tag
        (keptArgs (i.name == Gate.measuringFamily) i) (factors.map (·.2)) line with
      | error e => rfl
      | ok op =>
          simp only [place_eq h]
          exact ih (bounded_place h op)

theorem buildProducts_eq (h : s.tape.Bounded) (line : Nat) (i : Instruction) :
    buildProducts s line i = plain (s.buildProducts line i) := by
  rw [buildProducts, State.buildProducts]
  rcases productsAfter false i.targets with ⟨first, products, _ | bad⟩
  · exact bind_eq_plain (applyProducts_eq h line i products) fun t _ => rfl
  · rfl

theorem applyChunk_eq (h : s.tape.Bounded) (ctx : Context) (line : Nat) (i : Instruction)
    (gate : Gate) (chunk : List Target) :
    applyChunk s ctx line i gate chunk = plain (s.applyChunk ctx line i gate chunk) := by
  rw [applyChunk]
  cases hcontrol : chunk.find? Target.isClassical with
  | some control => rfl
  | none =>
      simp only [State.applyChunk, hcontrol]
      cases Operation.make gate i.tag (keptArgs gate.isMeasurement i)
        (chunk.filterMap Target.qubit?) line with
      | error e => rfl
      | ok op =>
          simp only [place_eq h]
          rfl

theorem bounded_applyChunk (h : s.tape.Bounded) {ctx : Context} {line : Nat} {i : Instruction}
    {gate : Gate} {chunk : List Target} {r : List QubitId × State}
    (hr : s.applyChunk ctx line i gate chunk = .ok r) : r.2.tape.Bounded := by
  cases hms : chunkMoves? ctx line i gate chunk with
  | none =>
      obtain ⟨p, hp⟩ := applyChunk_of_none hms s
      rw [hp] at hr
      cases hr
  | some ms =>
      obtain ⟨touched, t, ht, hchanges⟩ := applyChunk_of_some hms s
      cases ht.symm.trans hr
      rw [hchanges.tape]
      exact h.foldl ctx ms

theorem applyChunks_eq (h : s.tape.Bounded) (ctx : Context) (line : Nat) (i : Instruction)
    (gate : Gate) (chunks : List (List Target)) :
    applyChunks s ctx line i gate chunks = plain (s.applyChunks ctx line i gate chunks) := by
  induction chunks generalizing s with
  | nil => rfl
  | cons chunk rest ih =>
      refine bind_eq_plain (applyChunk_eq h ctx line i gate chunk) fun r hr => ?_
      exact bind_eq_plain (ih (bounded_applyChunk h hr)) fun more _ => rfl

theorem buildGate_eq (h : s.tape.Bounded) (ctx : Context) (line : Nat) (i : Instruction)
    (gate : Gate) (swapped : Bool) :
    buildGate s ctx line i gate swapped = plain (s.buildGate ctx line i gate swapped) := by
  unfold buildGate State.buildGate
  cases i.targets.findSome? (gateFault? gate i) with
  | some fault => rfl
  | none =>
      dsimp only
      split_ifs
      · rfl
      · exact bind_eq_plain (applyChunks_eq h ctx line i gate _) fun r _ => rfl

theorem buildNamed_eq (h : s.tape.Bounded) (ctx : Context) (line : Nat) (source : List Char)
    (i : Instruction) : buildNamed s ctx line source i = plain (s.buildNamed ctx line source i) := by
  unfold buildNamed State.buildNamed
  cases ctx.catalog.alias? i.name with
  | none =>
      dsimp only
      cases ctx.catalog.gate? i.name with
      | none => rfl
      | some gate => exact buildGate_eq h ctx line i gate _
  | some a =>
      cases a with
      | ignored => rfl
      | renamed canonical swapped =>
          dsimp only
          cases ctx.catalog.gate? canonical with
          | none => rfl
          | some gate => exact buildGate_eq h ctx line i gate swapped

theorem site?_eq (s : State) (t : Target) : site? s t = some (s.site? t) := by
  cases t with
  | record offset =>
      rw [site?, State.site?]
      by_cases hrange : offset < 0 ∧ 0 ≤ (s.record.size : Int) + offset
      · have hlt : ((s.record.size : Int) + offset).toNat < s.record.size := by omega
        simp only [if_pos hrange, Array.getElem?_eq_getElem hlt, Option.map_some]
      · simp only [if_neg hrange]
  | _ => rfl

theorem sites_eq (s : State) (ts : List Target) : sites s ts = some (s.sites ts) := by
  induction ts with
  | nil => rfl
  | cons t rest ih =>
      rw [sites, State.sites, site?_eq, ih]
      cases s.site? t with
      | error p => rfl
      | ok site => cases s.sites rest <;> rfl

theorem markSites_eq (gate : Gate) (tag : String) (index : Binary32) (line : Nat)
    {sites : List Site} (hsites : ∀ site ∈ sites, site.layer < s.circuit.schedule.size) :
    markSites s gate tag index line sites = some (s.markSites gate tag index line sites) := by
  induction sites generalizing s with
  | nil => rfl
  | cons site rest ih =>
      obtain ⟨hsite, hrest⟩ := List.forall_mem_cons.1 hsites
      rw [markSites, List.foldlM_cons, modify_eq hsite, State.markSites, List.foldl_cons]
      refine ih fun site' hsite' => ?_
      change site'.layer < (s.circuit.schedule.modify _ _).size
      rw [Schedule.size_modify]
      exact hrest site' hsite'

/-- The sites of a record are on layers of the schedule. -/
theorem layer_lt_of_sites (h : s.tape.Bounded) {ts : List Target} {sites : List Site}
    (hsites : s.sites ts = .ok sites) : ∀ site ∈ sites, site.layer < s.circuit.schedule.size := by
  cases hnumbers : recordNumbers? s.record.size ts with
  | none =>
      obtain ⟨p, hp⟩ := sites_of_none hnumbers
      rw [hp] at hsites
      cases hsites
  | some ks =>
      rw [sites_of_some hnumbers] at hsites
      cases hsites
      intro site hsite
      obtain ⟨k, -, hk⟩ := List.mem_filterMap.1 hsite
      exact h.layer_lt site (Array.mem_toList_iff.2 (Array.mem_of_getElem? hk))

theorem schedule_markerIndex {line : Nat} {i : Instruction} {r : Binary32 × State}
    (hr : s.markerIndex line i = .ok r) : r.2.circuit = s.circuit := by
  unfold State.markerIndex at hr
  split at hr
  · cases hr
    rfl
  · split at hr
    · cases hr
      rfl
    · split at hr
      · cases hr
        rfl
      · cases hr

theorem buildMarker_eq (h : s.tape.Bounded) (ctx : Context) (line : Nat) (source : List Char)
    (i : Instruction) :
    buildMarker s ctx line source i = plain (s.buildMarker ctx line source i) := by
  rw [buildMarker, State.buildMarker, sites_eq]
  cases hsites : s.sites i.targets with
  | error p => rfl
  | ok sites =>
      change (plain (s.markerIndex line i) >>= _) = plain (s.markerIndex line i >>= _)
      refine bind_eq_plain rfl fun r hr => ?_
      dsimp only
      cases ctx.catalog.gate? i.name with
      | none => rfl
      | some gate =>
          -- Reading the index changes no layer, so the sites are still there.
          have hlayers := layer_lt_of_sites h hsites
          rw [← schedule_markerIndex hr] at hlayers
          simp only [markSites_eq gate i.tag r.1 line hlayers]
          rfl

theorem build_eq (h : s.tape.Bounded) (ctx : Context) (line : Nat) (source : List Char)
    (i : Instruction) : build s ctx line source i = plain (s.build ctx line source i) := by
  unfold build
  split_ifs with hplain hmarker hproduct
  · rfl
  all_goals
    obtain ⟨htick, hcoordinates, hpolygon⟩ : i.name ≠ tickName ∧ i.name ≠ coordinatesName ∧
        i.name ≠ polygonName := by simpa only [not_or] using hplain
    rw [State.build, if_neg htick, if_neg hcoordinates, if_neg hpolygon]
  · rw [if_pos hmarker, buildMarker_eq h]
    cases s.buildMarker ctx line source i <;> rfl
  · rw [if_neg hmarker, if_pos hproduct, buildProducts_eq h]
  · rw [if_neg hmarker, if_neg hproduct, buildNamed_eq h]

/-- The layer of an outcome is one of the first `n`. -/
def Within (n : Nat) : Outcome → Prop
  | .applied _ _ layer => layer < n
  | _ => True

theorem within_buildProducts {line : Nat} {i : Instruction} {r : Outcome × State}
    (hr : s.buildProducts line i = .ok r) : Within r.2.circuit.schedule.size r.1 := by
  rw [State.buildProducts] at hr
  revert hr
  rcases productsAfter false i.targets with ⟨first, products, _ | bad⟩ <;> intro hr
  · obtain ⟨t, -, ht⟩ := exists_ok_of_bind hr
    cases ht
    exact Schedule.position_lt_size _
  · cases hr

theorem within_buildGate {ctx : Context} {line : Nat} {i : Instruction} {gate : Gate}
    {swapped : Bool} {r : Outcome × State} (hr : s.buildGate ctx line i gate swapped = .ok r) :
    Within r.2.circuit.schedule.size r.1 := by
  unfold State.buildGate at hr
  split at hr
  · cases hr
  · dsimp only at hr
    split at hr
    · cases hr
    · obtain ⟨t, -, ht⟩ := exists_ok_of_bind hr
      cases ht
      dsimp only
      split
      · trivial
      · exact Schedule.position_lt_size _

theorem within_buildNamed {ctx : Context} {line : Nat} {source : List Char} {i : Instruction}
    {r : Outcome × State} (hr : s.buildNamed ctx line source i = .ok r) :
    Within r.2.circuit.schedule.size r.1 := by
  unfold State.buildNamed at hr
  dsimp only at hr
  split at hr
  · cases hr
    trivial
  · split at hr
    · exact within_buildGate hr
    · cases hr
      trivial

/-- An instruction that applies a gate applies it on a layer that is there. -/
theorem within_build {ctx : Context} {line : Nat} {source : List Char} {i : Instruction}
    {r : Outcome × State} (hr : s.build ctx line source i = .ok r) :
    Within r.2.circuit.schedule.size r.1 := by
  unfold State.build at hr
  split_ifs at hr
  · cases hr
    trivial
  · unfold State.buildCoordinates at hr
    split at hr
    · dsimp only at hr
      split at hr
      · cases hr
        trivial
      · cases hr
    · cases hr
  · unfold State.buildPolygon at hr
    split at hr
    · cases hr
      trivial
    · cases hr
  · cases hmarker : s.buildMarker ctx line source i with
    | error e =>
        rw [hmarker] at hr
        cases hr
    | ok t =>
        rw [hmarker] at hr
        cases hr
        trivial
  · exact within_buildProducts hr
  · exact within_buildNamed hr

theorem highlightGate_eq (line : Nat) (colour : Option String) (qubits : List QubitId)
    (gate : String) (targets : List QubitId) {layer : Nat} (h : layer < s.circuit.schedule.size) :
    highlightGate s line colour qubits gate targets layer =
      some (s.highlightGate line colour qubits gate targets layer) := by
  unfold highlightGate State.highlightGate
  dsimp only
  split_ifs
  · rw [modify_eq h]
    rfl
  · rw [modify_eq (s := (s.report line (.highlightOutside gate)).circuit.schedule) h]
    rfl

theorem resolve_eq (line : Nat) {o : Outcome} (ho : Within s.circuit.schedule.size o) :
    resolve s line o = plain (s.resolve line o) := by
  unfold resolve
  split
  · rename_i start colour qubits gate targets layer hanchor
    rw [highlightGate_eq (s := { s with anchor := .free }) _ _ _ _ _ ho]
    simp only [State.resolve, hanchor]
    rfl
  · rfl

theorem buildInstruction_eq (h : s.tape.Bounded) (ctx : Context) (line : Nat)
    (source : List Char) (i : Instruction) :
    buildInstruction s ctx line source i = plain (s.buildInstruction ctx line source i) := by
  unfold buildInstruction State.buildInstruction
  generalize decide (i.name = coordinatesName ∧ i.targets.length ≠ 1) = misfit
  have hbuilt : (do
      let (outcome, s) ← build s ctx line source i
      resolve s line outcome) =
        plain (s.build ctx line source i >>= fun r => r.2.resolve line r.1) :=
    bind_eq_plain (build_eq h ctx line source i) fun r hr => resolve_eq line (within_build hr)
  cases s.anchor <;> cases misfit
  all_goals first | exact hbuilt | rfl

theorem buildLine_eq (h : s.tape.Bounded) (ctx : Context) (line : Nat) (text : List Char) :
    buildLine s ctx line text = plain (s.buildLine ctx line text) := by
  unfold buildLine State.buildLine
  dsimp only
  split_ifs
  · rfl
  · exact bind_eq_plain (resolve_eq line trivial) fun t _ => rfl
  · cases Instruction.read (Text.trim text) with
    | error fault => rfl
    | ok i => exact buildInstruction_eq (s := { s with contentSeen := true }) h ctx line _ i

theorem perform_eq (h : s.tape.Bounded) (ctx : Context) (a : Act) :
    perform ctx s a = plain (s.perform ctx a) := by
  cases a with
  | line number text => exact buildLine_eq h ctx number text
  | structural number => exact resolve_eq number trivial
  | fault number problem => rfl

theorem foldlM_perform_eq (h : s.tape.Bounded) (ctx : Context) (acts : List Act) :
    acts.foldlM (perform ctx) s = plain (acts.foldlM (State.perform ctx) s) := by
  induction acts generalizing s with
  | nil => rfl
  | cons a rest ih =>
      rw [List.foldlM_cons, List.foldlM_cons]
      refine bind_eq_plain (perform_eq h ctx a) fun t ht => ih ?_
      -- What is looked up next is on the tape that the moves of this act lead to.
      have htape := tape_after ctx s a
      rw [State.after, ht, leave] at htape
      rw [htape]
      exact h.foldl ctx _

theorem runLines_eq (ctx : Context) (lines : List (List Char)) :
    runLines ctx lines = plain (Build.runLines ctx lines) := by
  have hstart : ({} : State).tape.Bounded := tape_start ▸ Tape.Bounded.start
  rw [runLines, foldlM_perform_eq hstart, runLines_eq_foldlM]

/-- A parse looks nothing up out of range. -/
theorem parse_eq (ctx : Context) (text : String) : parse ctx text = some (parseWith ctx text) := by
  rw [parse, runLines_eq, parseWith, finalState]
  cases Build.runLines ctx (Source.normalize text.toList) <;> rfl

end Checked

end StimOverlay
