import StimOverlay.Proofs.Circuit.QubitArena

/-! What an instruction adds. Until the directive in front of it is resolved, an instruction adds
operations, markers, layers, places and warnings of its own line. It draws nothing and declares no sheet,
and the directive goes on waiting. -/

namespace StimOverlay

open Numeric

/-- What is drawn over each layer. -/
def Schedule.drawn (s : Schedule) : List (Array Overlay) := s.toList.map (·.overlays)

namespace Schedule

theorem drawn_modify {f : Layer → Layer} (hf : ∀ l : Layer, (f l).overlays = l.overlays)
    (s : Schedule) (k : Nat) : (s.modify k f).drawn = s.drawn := by
  rw [drawn, drawn, toList_modify]
  apply List.ext_getElem?
  intro i
  rw [List.getElem?_map, List.getElem?_map, List.getElem?_modify]
  cases s.toList[i]? with
  | none => rfl
  | some l => by_cases h : k = i <;> simp [h, hf]

theorem drawn_modifyCurrent {f : Layer → Layer} (hf : ∀ l : Layer, (f l).overlays = l.overlays)
    (s : Schedule) : (s.modifyCurrent f).drawn = s.drawn := by
  rw [modifyCurrent_eq_modify, drawn_modify hf]

theorem drawn_advance {l : Layer} (hl : l.overlays = #[]) (s : Schedule) :
    (s.advance l).drawn = s.drawn ++ [#[]] := by
  rw [drawn, toList_advance, List.map_append, List.map_singleton, hl, drawn]

theorem drawn_place (s : Schedule) (op : Operation) :
    (s.place op).drawn = s.drawn ∨ (s.place op).drawn = s.drawn ++ [#[]] := by
  unfold Schedule.place Layer.put
  split_ifs
  · exact .inl (drawn_modifyCurrent (f := (·.mark op)) (fun _ => rfl) s)
  · cases s.current.collision? op with
    | none => exact .inl (drawn_modifyCurrent (f := (·.insert op)) (fun _ => rfl) s)
    | some q => exact .inr (drawn_advance rfl s)

/-- Something is drawn over one of the layers. -/
def Draws (s : Schedule) (o : Overlay) : Prop := ∃ os ∈ s.drawn, o ∈ os

theorem draws_iff {s : Schedule} {o : Overlay} : s.Draws o ↔ ∃ l ∈ s.toList, o ∈ l.overlays := by
  simp [Draws, drawn]

/-- Drawing over a layer adds to what is drawn. -/
theorem draws_modify {s : Schedule} {k : Nat} {o o' : Overlay} :
    (s.modify k (·.draw o)).Draws o' ↔ s.Draws o' ∨ k < s.size ∧ o' = o := by
  rw [draws_iff, draws_iff, toList_modify, ← length_toList]
  constructor
  · rintro ⟨l, hl, ho'⟩
    obtain ⟨i, hi⟩ := List.mem_iff_getElem?.1 hl
    rw [List.getElem?_modify] at hi
    obtain ⟨l', hl', rfl⟩ := Option.map_eq_some_iff.1 hi
    by_cases hk : k = i
    · rw [if_pos hk] at ho'
      rcases Array.mem_push.1 ho' with ho' | rfl
      · exact .inl ⟨l', List.mem_of_getElem? hl', ho'⟩
      · exact .inr ⟨hk ▸ (List.getElem?_eq_some_iff.1 hl').1, rfl⟩
    · rw [if_neg hk] at ho'
      exact .inl ⟨l', List.mem_of_getElem? hl', ho'⟩
  · rintro (⟨l, hl, ho'⟩ | ⟨hk, rfl⟩)
    · obtain ⟨i, hi⟩ := List.mem_iff_getElem?.1 hl
      refine ⟨if k = i then l.draw o else l, List.mem_iff_getElem?.2 ⟨i, ?_⟩, ?_⟩
      · rw [List.getElem?_modify, hi]
        by_cases h : k = i <;> simp [h]
      · split_ifs
        · exact Array.mem_push_of_mem o ho'
        · exact ho'
    · refine ⟨s.toList[k].draw o', List.mem_iff_getElem?.2 ⟨k, ?_⟩, Array.mem_push_self⟩
      rw [List.getElem?_modify, List.getElem?_eq_getElem hk]
      simp

theorem draws_modifyCurrent {s : Schedule} {o o' : Overlay} :
    (s.modifyCurrent (·.draw o)).Draws o' ↔ s.Draws o' ∨ o' = o := by
  rw [modifyCurrent_eq_modify, draws_modify]
  simp [show s.position < s.size from Nat.lt_succ_self _]

end Schedule

/-- A changed qubit was there before or is fresh, and it has been changed or not. -/
theorem Circuit.mem_modifyQubit {c : Circuit} {q : QubitId} {f : Qubit → Qubit} {x : Qubit}
    (hx : x ∈ (c.modifyQubit q f).qubits) :
    ∃ y, (y ∈ c.qubits ∨ y.sheet = defaultSheet) ∧ (x = y ∨ x = f y) := by
  obtain ⟨i, hi⟩ := Array.mem_iff_getElem?.1 hx
  have hgrown : ∀ y, (grow c.qubits q)[i]? = some y → y ∈ c.qubits ∨ y.sheet = defaultSheet := by
    intro y hy
    rw [getElem?_grow] at hy
    split_ifs at hy
    · exact .inl (Array.mem_of_getElem? hy)
    · cases hy
      exact .inr rfl
  rw [getElem?_modifyQubit] at hi
  split_ifs at hi
  · obtain ⟨y, hy, rfl⟩ := Option.map_eq_some_iff.1 hi
    exact ⟨y, hgrown y hy, .inr rfl⟩
  · exact ⟨x, hgrown x hi, .inl rfl⟩

namespace Build

/-- Between two states an instruction of the given line has been built. -/
structure Adds (line : Nat) (s t : State) : Prop where
  anchor : t.anchor = s.anchor
  headers : t.headers = s.headers
  sheets : t.circuit.sheets = s.circuit.sheets
  /-- New qubits are on the default sheet, and no qubit changes its sheet. -/
  qubits : ∀ q ∈ t.circuit.qubits, q.sheet = defaultSheet ∨ ∃ r ∈ s.circuit.qubits, r.sheet = q.sheet
  drawn : ∃ fresh, t.circuit.schedule.drawn =
    s.circuit.schedule.drawn ++ List.replicate fresh #[]
  diagnostics : ∃ warnings, t.diagnostics.toList = s.diagnostics.toList ++ warnings ∧
    ∀ d ∈ warnings, d.line = line ∧ d.isError = false

namespace Adds

variable {line : Nat} {s t u : State}

theorem refl (line : Nat) (s : State) : Adds line s s where
  anchor := rfl
  headers := rfl
  sheets := rfl
  qubits q hq := .inr ⟨q, hq, rfl⟩
  drawn := ⟨0, by simp⟩
  diagnostics := ⟨[], by simp⟩

theorem trans (h : Adds line s t) (h' : Adds line t u) : Adds line s u where
  anchor := h'.anchor.trans h.anchor
  headers := h'.headers.trans h.headers
  sheets := h'.sheets.trans h.sheets
  qubits q hq := by
    rcases h'.qubits q hq with hfresh | ⟨r, hr, hsheet⟩
    · exact .inl hfresh
    · rw [← hsheet]
      exact h.qubits r hr
  drawn := by
    obtain ⟨m, hm⟩ := h.drawn
    obtain ⟨n, hn⟩ := h'.drawn
    exact ⟨m + n, by rw [hn, hm, List.append_assoc, List.replicate_append_replicate]⟩
  diagnostics := by
    obtain ⟨ds, hds, hline⟩ := h.diagnostics
    obtain ⟨es, hes, hline'⟩ := h'.diagnostics
    refine ⟨ds ++ es, by rw [hes, hds, List.append_assoc], fun d hd => ?_⟩
    rcases List.mem_append.1 hd with hd | hd
    · exact hline d hd
    · exact hline' d hd

theorem report {p : Problem} (hp : p.severity = .warning) (line : Nat) (s : State) :
    Adds line s (s.report line p) where
  anchor := rfl
  headers := rfl
  sheets := rfl
  qubits q hq := .inr ⟨q, hq, rfl⟩
  drawn := ⟨0, by simp [State.report]⟩
  diagnostics := by
    refine ⟨[⟨line, p⟩], by simp [State.report], fun d hd => ?_⟩
    rw [List.mem_singleton.1 hd]
    exact ⟨rfl, by simp [Diagnostic.isError, Diagnostic.severity, hp]⟩

theorem mapSchedule {f : Schedule → Schedule} {n : Nat}
    (hf : (f s.circuit.schedule).drawn = s.circuit.schedule.drawn ++ List.replicate n #[])
    (line : Nat) : Adds line s (s.mapSchedule f) where
  anchor := rfl
  headers := rfl
  sheets := rfl
  qubits q hq := .inr ⟨q, hq, rfl⟩
  drawn := ⟨n, hf⟩
  diagnostics := ⟨[], by simp [State.mapSchedule]⟩

/-- Nothing is drawn. -/
theorem draws_iff (h : Adds line s t) {o : Overlay} :
    t.circuit.schedule.Draws o ↔ s.circuit.schedule.Draws o := by
  obtain ⟨fresh, hdrawn⟩ := h.drawn
  rw [Schedule.Draws, hdrawn, Schedule.Draws]
  constructor
  · rintro ⟨os, hos, ho⟩
    rcases List.mem_append.1 hos with hos | hos
    · exact ⟨os, hos, ho⟩
    · rw [List.eq_of_mem_replicate hos] at ho
      exact absurd ho (Array.not_mem_empty o)
  · rintro ⟨os, hos, ho⟩
    exact ⟨os, List.mem_append_left _ hos, ho⟩

/-- A mark on a layer. -/
theorem mark (line : Nat) (s : State) (k : Nat) (op : Operation) :
    Adds line s (s.mapSchedule (·.modify k (·.mark op))) := by
  refine mapSchedule (n := 0) ?_ line
  rw [List.replicate_zero, List.append_nil]
  exact Schedule.drawn_modify (f := (·.mark op)) (fun _ => rfl) _ k

theorem place (line : Nat) (s : State) (op : Operation) : Adds line s (s.place op) := by
  have hplaced : Adds line s (s.mapSchedule (·.place op)) := by
    rcases s.circuit.schedule.drawn_place op with h | h
    · exact mapSchedule (n := 0) (by simpa using h) line
    · exact mapSchedule (n := 1) h line
  unfold State.place
  dsimp only
  split
  · exact hplaced
  · split
    · exact { hplaced with }
    · exact hplaced

end Adds

/-- A step of an instruction that gives a result with the property `Q`, or halts with an error of the
line of the instruction. -/
def Adding (line : Nat) (s : State) (Q : α → Prop) : Step α → Prop
  | .ok a => Q a
  | .error e => ∃ t p, Adds line s t ∧ p.severity = .error ∧ e.state = t.report line p

namespace Adding

variable {line : Nat} {s t : State} {P : α → Prop} {Q : β → Prop}

theorem bind {x : Step α} {f : α → Step β} (h : Adding line s P x)
    (hf : ∀ a, P a → Adding line s Q (f a)) : Adding line s Q (x >>= f) := by
  cases x with
  | ok a => exact hf a h
  | error e => exact h

theorem halt (h : Adds line s t) {p : Problem} (hp : p.severity = .error) :
    Adding line s P (t.halt line p) := ⟨t, p, h, hp, rfl⟩

end Adding

variable {s t : State} {ctx : Context} {line : Nat} {i : Instruction}

theorem adding_applyProducts (h : Adds line s t) (products : List Factors) :
    Adding line s (Adds line s) (t.applyProducts line i products) := by
  induction products generalizing t with
  | nil => exact h
  | cons factors rest ih =>
      rw [State.applyProducts]
      refine Adding.bind (P := Adds line s) ?_ fun u hu => ih hu
      unfold State.applyProduct
      dsimp only
      split
      · exact .halt h rfl
      · exact h.trans (.place line t _)

theorem adding_buildProducts (s : State) (line : Nat) (i : Instruction) :
    Adding line s (fun r => Adds line s r.2) (s.buildProducts line i) := by
  unfold State.buildProducts
  rcases productsAfter false i.targets with ⟨_, products, _ | bad⟩
  · exact (adding_applyProducts (.refl line s) products).bind fun u hu => hu
  · exact .halt (.refl line s) rfl

theorem adds_markFeedback (s : State) (ctx : Context) (line : Nat) (gate : Gate)
    (pair : List Target) (q : QubitId) : Adds line s (s.markFeedback ctx line gate pair q) := by
  unfold State.markFeedback
  dsimp only
  split
  · exact .report rfl line s
  · rename_i err _
    have hmark : Adds line s (s.mapSchedule (·.modifyCurrent (·.mark (.onQubit err "" [] q line)))) := by
      refine .mapSchedule (n := 0) ?_ line
      rw [List.replicate_zero, List.append_nil]
      exact Schedule.drawn_modifyCurrent (f := (·.mark _)) (fun _ => rfl) _
    exact hmark.trans (.report rfl line _)

theorem adding_applyChunk (h : Adds line s t) (gate : Gate) (chunk : List Target) :
    Adding line s (fun r => Adds line s r.2) (t.applyChunk ctx line i gate chunk) := by
  unfold State.applyChunk
  split
  · split
    · exact h.trans (adds_markFeedback t ctx line gate chunk _)
    · exact .halt h rfl
  · dsimp only
    split
    · exact .halt h rfl
    · exact h.trans (.place line t _)

theorem adding_applyChunks (h : Adds line s t) (gate : Gate) (chunks : List (List Target)) :
    Adding line s (fun r => Adds line s r.2) (t.applyChunks ctx line i gate chunks) := by
  induction chunks generalizing t with
  | nil => exact h
  | cons chunk rest ih =>
      rw [State.applyChunks]
      refine (adding_applyChunk h gate chunk).bind ?_
      rintro ⟨touched, u⟩ hu
      exact (ih hu).bind fun _ hv => hv

theorem adding_buildGate (s : State) (gate : Gate) (swapped : Bool) :
    Adding line s (fun r => Adds line s r.2) (s.buildGate ctx line i gate swapped) := by
  unfold State.buildGate
  split
  · exact .halt (.refl line s) rfl
  · dsimp only
    split_ifs
    · exact .halt (.refl line s) rfl
    · exact (adding_applyChunks (.refl line s) gate _).bind fun r hr => hr

theorem adding_buildNamed (s : State) (source : List Char) :
    Adding line s (fun r => Adds line s r.2) (s.buildNamed ctx line source i) := by
  unfold State.buildNamed
  dsimp only
  split
  · exact .refl line s
  · split
    · exact adding_buildGate s _ _
    · exact .report rfl line s

theorem adds_declare {c : Circuit} {q : QubitId} {p : Point} (h : s.circuit.declare q p = .ok c)
    (line : Nat) : Adds line s { s with circuit := c } where
  anchor := rfl
  headers := rfl
  sheets := by
    unfold Circuit.declare at h
    split at h
    · split_ifs at h
      cases h
      rfl
    · cases h
      rfl
  qubits x hx := by
    have hmoved : c.qubits =
        ({ s.circuit with coords := s.circuit.coords.insert q p }.modifyQubit q (·.moveTo p)).qubits := by
      unfold Circuit.declare at h
      split at h
      · split_ifs at h
        cases h
        rfl
      · cases h
        rfl
    dsimp only at hx
    rw [hmoved] at hx
    obtain ⟨y, hy, hxy⟩ := Circuit.mem_modifyQubit hx
    have hsheet : x.sheet = y.sheet := by
      rcases hxy with rfl | rfl <;> rfl
    rcases hy with hy | hy
    · exact .inr ⟨y, hy, hsheet.symm⟩
    · exact .inl (hsheet.trans hy)
  drawn := ⟨0, by simp [declare_schedule h]⟩
  diagnostics := ⟨[], by simp⟩

theorem adding_buildCoordinates (s : State) (source : List Char) :
    Adding line s (fun r => Adds line s r.2) (s.buildCoordinates line source i) := by
  unfold State.buildCoordinates
  split
  · dsimp only
    split
    · rename_i c hdeclare
      exact adds_declare hdeclare line
    · exact .halt (.refl line s) rfl
  · exact .halt (.refl line s) rfl

theorem adding_buildPolygon (s : State) :
    Adding line s (fun r => r.2 = s) (s.buildPolygon line i) := by
  unfold State.buildPolygon
  split
  · rfl
  · exact .halt (.refl line s) rfl

theorem adds_markSites (s : State) (gate : Gate) (tag : String) (index : Binary32) (line : Nat)
    (sites : List Site) : Adds line s (s.markSites gate tag index line sites) := by
  induction sites generalizing s with
  | nil => exact .refl line s
  | cons site sites ih => exact (Adds.mark line s site.layer _).trans (ih _)

theorem severity_of_sites {s : State} {ts : List Target} {p : Problem} (h : s.sites ts = .error p) :
    p.severity = .warning := by
  induction ts with
  | nil => cases h
  | cons t ts ih =>
      rw [State.sites] at h
      cases hsite : s.site? t with
      | error e =>
          rw [hsite] at h
          cases h
          unfold State.site? at hsite
          split at hsite
          · dsimp only at hsite
            split at hsite
            · cases hsite
            · cases hsite
              rfl
          · cases hsite
            rfl
      | ok site =>
          rw [hsite] at h
          cases hsites : s.sites ts with
          | error e =>
              rw [hsites] at h
              cases h
              exact ih hsites
          | ok sites =>
              rw [hsites] at h
              cases h

theorem adding_buildMarker (s : State) (source : List Char) :
    Adding line s (Adds line s) (s.buildMarker ctx line source i) := by
  unfold State.buildMarker
  split
  · rename_i p hsites
    exact .report (severity_of_sites hsites) line s
  · refine Adding.bind (P := fun r => Adds line s r.2) ?_ fun r hr => ?_
    · unfold State.markerIndex
      split_ifs
      · exact { Adds.refl line s with }
      · split
        · exact .refl line s
        · split_ifs
          · exact .refl line s
          · exact .halt (.refl line s) rfl
    · dsimp only
      split
      · exact hr.trans (.report rfl line _)
      · exact hr.trans (adds_markSites ..)

/-- Building an instruction, before anything that waits is resolved. -/
theorem adding_build (s : State) (source : List Char) :
    Adding line s (fun r => Adds line s r.2) (s.build ctx line source i) := by
  unfold State.build
  split_ifs
  · exact Adds.mapSchedule (f := (·.advance .empty)) (n := 1) (Schedule.drawn_advance rfl _) line
  · exact adding_buildCoordinates s source
  · have hpolygon : Adding line s (fun r => r.2 = s) (s.buildPolygon line i) :=
      adding_buildPolygon s
    cases hbuild : s.buildPolygon line i with
    | error e => rwa [hbuild] at hpolygon
    | ok r =>
        rw [hbuild] at hpolygon
        exact (show r.2 = s from hpolygon) ▸ .refl line s
  · have hmarker : Adding line s (Adds line s) (s.buildMarker ctx line source i) :=
      adding_buildMarker s source
    cases hbuild : s.buildMarker ctx line source i with
    | error e => rwa [hbuild] at hmarker
    | ok t => rwa [hbuild] at hmarker
  · exact adding_buildProducts s line i
  · exact adding_buildNamed s source

end Build

end StimOverlay
