import StimOverlay.Proofs.Layer.SoundLayers

/-! Layered runs. Reading the layers of a circuit one after another gives the operations that the run
placed, in the order in which it placed them; every layer is sound; and a layer that no `TICK` opened
starts with an operation that had no place in the layer before it. -/

namespace StimOverlay

open Operation

namespace Layer

theorem isEmpty_iff {l : Layer} :
    l.isEmpty ↔ l.operations = #[] ∧ l.markers = #[] ∧ l.overlays = #[] := by
  simp only [isEmpty, Bool.and_eq_true, Array.isEmpty_iff, and_assoc]

/-- Empty layers behind other ones hold nothing. -/
theorem getD_map_append {f : Layer → List α} (hf : ∀ l, l.isEmpty → f l = []) {layers rest : List Layer}
    (hempty : ∀ l ∈ rest, l.isEmpty) (j : Nat) :
    ((layers ++ rest).map f)[j]?.getD [] = f (layers.getD j .empty) := by
  rw [List.getElem?_map, List.getElem?_append, List.getD_eq_getElem?_getD]
  split
  case isTrue hj =>
    rw [List.getElem?_eq_getElem hj]
    rfl
  case isFalse hj =>
    rw [List.getElem?_eq_none (Nat.not_lt.1 hj), Option.getD_none, hf .empty rfl]
    cases hl : rest[j - layers.length]? with
    | none => rfl
    | some l => exact hf l (hempty l (List.mem_of_getElem? hl))

end Layer

namespace Schedule

/-- The operations of each layer. -/
def operations (s : Schedule) : List (List Operation) := s.toList.map (·.operations.toList)

theorem operations_eq (s : Schedule) :
    s.operations = s.finished.toList.map (·.operations.toList) ++
      [s.current.operations.toList] := by
  simp [operations, toList]

theorem toList_modify (s : Schedule) (k : Nat) (f : Layer → Layer) :
    (s.modify k f).toList = s.toList.modify k f := by
  apply List.ext_getElem?
  intro i
  rw [List.getElem?_modify]
  unfold modify
  split
  · rename_i hk
    subst hk
    simp only [toList, modifyCurrent, position, List.getElem?_append, Array.length_toList]
    by_cases hi : i < s.finished.size
    · have hne : s.finished.size ≠ i := by omega
      simp [hi, hne]
    · by_cases hlast : i = s.finished.size
      · simp [hlast]
      · have hsub : i - s.finished.size ≠ 0 := by omega
        simp [hi, hsub]
  · rename_i hk
    simp only [toList, List.getElem?_append, Array.length_toList, Array.size_modify]
    by_cases hi : i < s.finished.size
    · simp only [hi, if_true, Array.getElem?_toList, Array.getElem?_modify]
      by_cases heq : k = i <;> simp [heq]
    · by_cases hlast : i = s.finished.size
      · have hne : k ≠ i := by
          rw [hlast]
          exact hk
        simp [hlast, hlast ▸ hne]
      · have hsub : i - s.finished.size ≠ 0 := by omega
        simp [hi, hsub]

theorem operations_modify_mark (s : Schedule) (k : Nat) (op : Operation) :
    (s.modify k (·.mark op)).operations = s.operations := by
  rw [operations, operations, toList_modify]
  apply List.ext_getElem?
  intro i
  rw [List.getElem?_map, List.getElem?_map, List.getElem?_modify]
  cases s.toList[i]? with
  | none => rfl
  | some l => by_cases h : k = i <;> simp [h, Layer.mark]

theorem modifyCurrent_eq_modify (s : Schedule) (f : Layer → Layer) :
    s.modifyCurrent f = s.modify s.position f := by
  rw [modify, if_pos rfl]

section

variable {s : Schedule} {P : Layer → Prop}

/-- What a change of a layer keeps holds of all layers after it. -/
theorem forall_modify (h : ∀ l ∈ s.toList, P l) (k : Nat) {f : Layer → Layer}
    (hf : ∀ l, P l → P (f l)) : ∀ l ∈ (s.modify k f).toList, P l := by
  intro l hl
  rw [toList_modify] at hl
  obtain ⟨i, hi⟩ := List.mem_iff_getElem?.1 hl
  rw [List.getElem?_modify] at hi
  obtain ⟨l', hl', rfl⟩ := Option.map_eq_some_iff.1 hi
  split_ifs
  · exact hf l' (h l' (List.mem_of_getElem? hl'))
  · exact h l' (List.mem_of_getElem? hl')

theorem forall_modifyCurrent (h : ∀ l ∈ s.toList, P l) {f : Layer → Layer}
    (hf : ∀ l, P l → P (f l)) : ∀ l ∈ (s.modifyCurrent f).toList, P l := by
  rw [modifyCurrent_eq_modify]
  exact forall_modify h _ hf

theorem forall_advance (h : ∀ l ∈ s.toList, P l) {l : Layer} (hl : P l) :
    ∀ l' ∈ (s.advance l).toList, P l' := by
  intro l' hl'
  rw [toList_advance, List.mem_append, List.mem_singleton] at hl'
  rcases hl' with hl' | rfl
  · exact h l' hl'
  · exact hl

/-- A property of layers that an operation keeps wherever it is put also holds after it is placed. -/
theorem forall_place (h : ∀ l ∈ s.toList, P l) (hempty : P .empty) {op : Operation}
    (hmark : ∀ l, P l → P (l.mark op)) (hinsert : ∀ l, P l → P (l.insert op)) :
    ∀ l ∈ (s.place op).toList, P l := by
  unfold place Layer.put
  split_ifs with hmarker
  · exact forall_modifyCurrent h hmark
  · cases hcollision : s.current.collision? op with
    | none => exact forall_modifyCurrent h hinsert
    | some q => exact forall_advance h (hinsert _ hempty)

end

/-- Every layer is sound. -/
def Sound (s : Schedule) : Prop := ∀ l ∈ s.toList, l.Sound

theorem Sound.current {s : Schedule} (h : s.Sound) : s.current.Sound :=
  h _ (List.mem_append_right _ (List.mem_singleton.2 rfl))

theorem Sound.advance {s : Schedule} (h : s.Sound) {l : Layer} (hl : l.Sound) :
    (s.advance l).Sound := forall_advance h hl

theorem Sound.withCurrent {s : Schedule} (h : s.Sound) {l : Layer} (hl : l.Sound) :
    ({ s with current := l } : Schedule).Sound := by
  intro l' hl'
  rcases List.mem_append.1 hl' with hl' | hl'
  · exact h l' (List.mem_append_left _ hl')
  · exact List.mem_singleton.1 hl' ▸ hl

theorem Sound.modify_mark {s : Schedule} (h : s.Sound) (k : Nat) (op : Operation) :
    (s.modify k (·.mark op)).Sound := forall_modify h k fun _ hl => hl.mark op

/-- What placing an operation does: a marker joins the current layer; any other operation joins it
too if it is compatible with it, and opens the next layer otherwise. -/
theorem place_cases {s : Schedule} (h : s.Sound) {op : Operation}
    (hbuilt : Build.WellBuilt .standard op) :
    (op.gate.isMarker ∧ s.place op = s.modifyCurrent (·.mark op)) ∨
      (Layer.Placeable op ∧ (∀ a ∈ s.current.operations.toList, a.Compatible op) ∧
        s.place op = { s with current := s.current.insert op }) ∨
      (Layer.Placeable op ∧ (∃ a ∈ s.current.operations.toList, ¬a.Compatible op) ∧
        s.place op = s.advance (.startingWith op)) := by
  unfold place Layer.put
  cases hmarker : op.gate.isMarker with
  | true => exact .inl ⟨rfl, rfl⟩
  | false =>
      have hop : Layer.Placeable op := ⟨hbuilt, hmarker⟩
      have hiff := Layer.collision?_eq_none_iff h.current hop
      cases hcollision : s.current.collision? op with
      | none => exact .inr (.inl ⟨hop, hiff.1 hcollision, rfl⟩)
      | some q =>
          refine .inr (.inr ⟨hop, ?_, rfl⟩)
          by_contra hnone
          simp only [not_exists, not_and, not_not] at hnone
          rw [hiff.2 hnone] at hcollision
          cases hcollision

theorem Sound.place {s : Schedule} (h : s.Sound) {op : Operation}
    (hbuilt : Build.WellBuilt .standard op) : (s.place op).Sound := by
  rcases place_cases h hbuilt with ⟨-, hplace⟩ | ⟨hop, hall, hplace⟩ | ⟨hop, -, hplace⟩
  · rw [hplace, modifyCurrent_eq_modify]
    exact h.modify_mark _ op
  · rw [hplace]
    exact h.withCurrent (h.current.insert hop hall)
  · rw [hplace]
    exact h.advance (Layer.sound_startingWith hop)

end Schedule

/-- Every layer after the first is one of those at which `ticked` holds of the position before it, or
starts with an operation that is not compatible with the layer before it. -/
def Opened (ticked : Nat → Prop) (layers : List (List Operation)) : Prop :=
  ∀ k earlier later, layers[k]? = some earlier → layers[k + 1]? = some later →
    ticked k ∨ ∃ op rest, later = op :: rest ∧ ∃ a ∈ earlier, ¬a.Compatible op

namespace Opened

theorem mono {ticked ticked' : Nat → Prop} {layers : List (List Operation)}
    (h : Opened ticked layers) (himp : ∀ k, ticked k → ticked' k) : Opened ticked' layers :=
  fun k earlier later he hl => (h k earlier later he hl).imp_left (himp k)

theorem extend {ticked : Nat → Prop} {finished : List (List Operation)} {current : List Operation}
    (h : Opened ticked (finished ++ [current])) (op : Operation) :
    Opened ticked (finished ++ [current ++ [op]]) := by
  intro k earlier later he hl
  have hk : k < finished.length := by
    have := (List.getElem?_eq_some_iff.1 hl).1
    rw [List.length_append, List.length_singleton] at this
    omega
  rw [List.getElem?_append_left hk] at he
  have he' : (finished ++ [current])[k]? = some earlier := by
    rw [List.getElem?_append_left hk, he]
  by_cases hnext : k + 1 < finished.length
  · rw [List.getElem?_append_left hnext] at hl
    exact h k earlier later he' (by rw [List.getElem?_append_left hnext, hl])
  · have hlast : k + 1 - finished.length = 0 := by omega
    rw [List.getElem?_append_right (by omega), hlast] at hl
    cases hl
    have hcurrent : (finished ++ [current])[k + 1]? = some current := by
      rw [List.getElem?_append_right (by omega), hlast]
      rfl
    refine (h k earlier current he' hcurrent).imp_right ?_
    rintro ⟨first, rest, rfl, hclash⟩
    exact ⟨first, rest ++ [op], rfl, hclash⟩

theorem concat {ticked : Nat → Prop} {finished : List (List Operation)}
    {current next : List Operation} (h : Opened ticked (finished ++ [current]))
    (hnext : ticked finished.length ∨
      ∃ op rest, next = op :: rest ∧ ∃ a ∈ current, ¬a.Compatible op) :
    Opened ticked (finished ++ [current] ++ [next]) := by
  intro k earlier later he hl
  by_cases hk : k + 1 < (finished ++ [current]).length
  · rw [List.getElem?_append_left (by omega)] at he
    rw [List.getElem?_append_left hk] at hl
    exact h k earlier later he hl
  · have hlast : k = finished.length := by
      have := (List.getElem?_eq_some_iff.1 hl).1
      simp only [List.length_append, List.length_singleton] at this hk
      omega
    subst hlast
    have hearlier : earlier = current := by simpa using he.symm
    have hlater : later = next := by simpa using hl.symm
    rw [hearlier, hlater]
    exact hnext

end Opened

namespace Build

/-- The operation that a move places in a layer, if it places one. -/
def Move.operation? : Move → Option Operation
  | .place op => if op.gate.isMarker then none else some op
  | _ => none

/-- The moves of `ms` reach a `TICK` when the layer at position `k` is the current one. -/
def Tape.TickedAt (ctx : Context) (ms : List Move) (k : Nat) : Prop :=
  ∃ earlier later, ms = earlier ++ .tick :: later ∧
    (Tape.after ctx earlier).schedule.position = k

theorem Tape.TickedAt.append {ctx : Context} {ms : List Move} {k : Nat}
    (h : TickedAt ctx ms k) (more : List Move) : TickedAt ctx (ms ++ more) k := by
  obtain ⟨earlier, later, rfl, hk⟩ := h
  exact ⟨earlier, later ++ more, by simp, hk⟩

/-- The tape of some moves is a faithful schedule of them. -/
structure Tape.Layered (ms : List Move) (t : Tape) : Prop where
  sound : t.schedule.Sound
  complete : t.schedule.operations.flatten = ms.filterMap Move.operation?
  opened : Opened (TickedAt .standard ms) t.schedule.operations

namespace Tape

theorem layered_start : Layered [] {} where
  sound l hl := by
    rw [List.mem_singleton.1 (show l ∈ [Layer.empty] from hl)]
    exact Layer.sound_empty
  complete := rfl
  opened k earlier later _ hl := by
    have hlength := (List.getElem?_eq_some_iff.1 hl).1
    exact absurd hlength (by simp [Schedule.operations, Schedule.toList, Schedule.empty])

theorem Layered.mark {ms : List Move} {t : Tape} (h : Layered ms t) {m : Move}
    (hm : m.operation? = none) {s : Schedule} (hsound : s.Sound)
    (hsame : s.operations = t.schedule.operations) {record : Array Site} {detectors : Nat} :
    Layered (ms ++ [m]) ⟨s, record, detectors⟩ where
  sound := hsound
  complete := by
    rw [hsame, h.complete, List.filterMap_append, List.filterMap_cons, hm, List.filterMap_nil,
      List.append_nil]
  opened := by
    rw [hsame]
    exact h.opened.mono fun k hk => hk.append [m]

/-- What each of some marks keeps of a schedule, all of them keep. -/
theorem markAll_induction {P : Schedule → Prop} {t : Tape} (h : P t.schedule)
    {marks : List (Nat × Operation)}
    (hmarks : ∀ e ∈ marks, ∀ s, P s → P (s.modify e.1 (·.mark e.2))) : P (t.markAll marks).schedule :=
  List.foldlRecOn marks _ h fun s hs e he => hmarks e he s hs

theorem sound_markAll {t : Tape} (hsound : t.schedule.Sound) (marks : List (Nat × Operation)) :
    (t.markAll marks).schedule.Sound :=
  markAll_induction hsound fun e _ _ hs => hs.modify_mark e.1 e.2

theorem operations_markAll (t : Tape) (marks : List (Nat × Operation)) :
    (t.markAll marks).schedule.operations = t.schedule.operations := by
  apply markAll_induction (P := fun s => s.operations = t.schedule.operations) rfl
  intro e _ s hs
  exact (Schedule.operations_modify_mark s e.1 e.2).trans hs

theorem Layered.place {ms : List Move} {t : Tape} (h : Layered ms t) {op : Operation}
    (hbuilt : WellBuilt .standard op) : Layered (ms ++ [.place op]) (t.place op) := by
  have hsound := h.sound.place hbuilt
  have hmono : Opened (TickedAt .standard (ms ++ [.place op])) t.schedule.operations :=
    h.opened.mono fun k hk => hk.append _
  rcases Schedule.place_cases h.sound hbuilt with
    ⟨hmarker, hplace⟩ | ⟨hop, -, hplace⟩ | ⟨hop, hclash, hplace⟩
  · have hsame : (t.schedule.place op).operations = t.schedule.operations := by
      rw [hplace, Schedule.modifyCurrent_eq_modify]
      exact Schedule.operations_modify_mark _ _ op
    exact h.mark (by simp [Move.operation?, hmarker]) hsound hsame
  · have hops : (t.place op).schedule.operations =
        t.schedule.finished.toList.map (·.operations.toList) ++
          [t.schedule.current.operations.toList ++ [op]] := by
      simp only [Tape.place, hplace, Schedule.operations_eq, Layer.insert, Array.toList_push]
    refine ⟨hsound, ?_, ?_⟩
    · rw [hops, List.filterMap_append, ← h.complete, Schedule.operations_eq]
      simp [Move.operation?, hop.acting]
    · rw [hops]
      rw [Schedule.operations_eq] at hmono
      exact hmono.extend op
  · have hops : (t.place op).schedule.operations = t.schedule.operations ++ [[op]] := by
      simp [Tape.place, hplace, Schedule.operations, Layer.startingWith, Layer.insert, Layer.empty]
    refine ⟨hsound, ?_, ?_⟩
    · rw [hops, List.filterMap_append, ← h.complete]
      simp [Move.operation?, hop.acting]
    · rw [hops]
      rw [Schedule.operations_eq] at hmono ⊢
      exact hmono.concat (.inr ⟨op, [], rfl, hclash⟩)

/-- One more move keeps the schedule faithful. -/
theorem Layered.move {ms : List Move} (h : Layered ms (.after .standard ms)) {m : Move}
    (hm : ∀ op, m = .place op → WellBuilt .standard op) :
    Layered (ms ++ [m]) ((Tape.after .standard ms).move .standard m) := by
  cases m with
  | tick =>
      refine ⟨h.sound.advance Layer.sound_empty, ?_, ?_⟩
      · rw [List.filterMap_append, ← h.complete]
        simp [Tape.move, Schedule.operations, Layer.empty, Move.operation?]
      · have hmono : Opened (TickedAt .standard (ms ++ [.tick]))
            (Tape.after .standard ms).schedule.operations := h.opened.mono fun k hk => hk.append _
        have hops : ((Tape.after .standard ms).move .standard .tick).schedule.operations =
            (Tape.after .standard ms).schedule.operations ++ [[]] := by
          simp [Tape.move, Schedule.operations, Layer.empty]
        rw [hops]
        rw [Schedule.operations_eq] at hmono ⊢
        refine hmono.concat (.inl ⟨ms, [], rfl, ?_⟩)
        simp [Schedule.position]
  | place op => exact h.place (hm op rfl)
  | mark op =>
      simp only [Tape.move, Schedule.modifyCurrent_eq_modify]
      exact h.mark rfl (h.sound.modify_mark _ op) (Schedule.operations_modify_mark _ _ op)
  | detector tag line numbers =>
      exact h.mark rfl (sound_markAll h.sound _) (operations_markAll _ _)
  | observable index tag line numbers =>
      exact h.mark rfl (sound_markAll h.sound _) (operations_markAll _ _)

theorem layered_after (ms : List Move)
    (hms : ∀ op, .place op ∈ ms → WellBuilt .standard op) :
    Layered ms (Tape.after .standard ms) := by
  induction ms using List.reverseRecOn with
  | nil => exact layered_start
  | append_singleton ms m ih =>
      rw [Tape.after, List.foldl_append]
      refine (ih fun op hop => hms op (List.mem_append_left _ hop)).move fun op hop => ?_
      exact hms op (List.mem_append_right _ (List.mem_singleton.2 hop.symm))

end Tape

end Build

/-- Dropping the empty layers at the end keeps a beginning of the schedule. -/
theorem Schedule.reverse_eq_ofReversed_append {ls : List Layer} (h : ls ≠ []) :
    ∃ rest, ls.reverse = (ofReversed ls).toList ++ rest ∧ ∀ l ∈ rest, l.isEmpty := by
  induction ls with
  | nil => exact absurd rfl h
  | cons l earlier ih =>
      cases earlier with
      | nil => exact ⟨[], by simp [ofReversed, toList], fun l hl => absurd hl List.not_mem_nil⟩
      | cons l' earlier =>
          rw [ofReversed]
          · by_cases hempty : l.isEmpty
            · obtain ⟨rest, hrest, hall⟩ := ih (List.cons_ne_nil _ _)
              rw [if_pos hempty, List.reverse_cons, hrest]
              refine ⟨rest ++ [l], List.append_assoc .., fun x hx => ?_⟩
              rcases List.mem_append.1 hx with hx | hx
              · exact hall x hx
              · exact List.mem_singleton.1 hx ▸ hempty
            · rw [if_neg hempty]
              exact ⟨[], by simp [toList], fun l hl => absurd hl List.not_mem_nil⟩
          · simp

theorem Schedule.toList_eq_trimEnd_append (s : Schedule) :
    ∃ rest, s.toList = s.trimEnd.toList ++ rest ∧ ∀ l ∈ rest, l.isEmpty := by
  have hne : s.toList.reverse ≠ [] := by simp [s.toList_ne_nil]
  have h := reverse_eq_ofReversed_append hne
  rwa [List.reverse_reverse] at h

namespace Circuit

theorem schedule_complete (c : Circuit) : c.complete.schedule = c.schedule := by
  have hmoved (entries : List (QubitId × Point)) (d : Circuit) :
      (entries.foldl (fun c entry => c.modifyQubit entry.1 (·.moveTo entry.2)) d).schedule =
        d.schedule := by
    induction entries generalizing d with
    | nil => rfl
    | cons entry rest ih => exact ih _
  unfold complete
  exact hmoved _ _

theorem schedule_finish (c : Circuit) : c.finish.schedule = c.schedule.trimEnd := by
  simp only [finish, registerOverlays, schedule_complete]

end Circuit

namespace Build

/-- The moves that a text makes. -/
def movesOf (text : String) : List Move :=
  moves .standard (course .standard (Source.normalize text.toList))

/-- The tape that a text leaves behind. -/
def tapeOf (text : String) : Tape := .after .standard (movesOf text)

theorem tape_finalState (text : String) :
    (finalState .standard (Source.normalize text.toList)).tape = tapeOf text := by
  rw [finalState_eq_stateAfter, tape_stateAfter]
  rfl

theorem wellBuilt_of_mem_movesOf {text : String} {op : Operation}
    (h : Move.place op ∈ movesOf text) : WellBuilt .standard op :=
  wellBuilt_of_mem_moves h

theorem bare_layers_parse (text : String) :
    (parse text).circuit.layers.map Layer.bare =
      (finalState .standard (Source.normalize text.toList)).circuit.schedule.trimEnd.toList.map
        Layer.bare := by
  rw [parse, parseWith, Parsed.ofState, Circuit.layers, Schedule.toList_map, List.map_map,
    Circuit.schedule_finish]
  rfl

/-- A parsed circuit has the layers of the tape, without those at the end that hold nothing. -/
theorem tapeOf_toList (text : String) :
    ∃ rest, (tapeOf text).schedule.toList = (parse text).circuit.layers.map Layer.bare ++ rest ∧
      ∀ l ∈ rest, l.isEmpty := by
  have htape : (tapeOf text).schedule.toList =
      (finalState .standard (Source.normalize text.toList)).circuit.schedule.toList.map
        Layer.bare := by
    rw [← tape_finalState, State.tape, Schedule.toList_map]
  have hlayers := bare_layers_parse text
  obtain ⟨rest, hrest, hempty⟩ :=
    (finalState .standard (Source.normalize text.toList)).circuit.schedule.toList_eq_trimEnd_append
  refine ⟨rest.map Layer.bare, by rw [htape, hlayers, hrest, List.map_append], fun l hl => ?_⟩
  obtain ⟨l', hl', rfl⟩ := List.mem_map.1 hl
  obtain ⟨hops, hmarkers, -⟩ := Layer.isEmpty_iff.1 (hempty l' hl')
  exact Layer.isEmpty_iff.2 ⟨hops, hmarkers, rfl⟩

theorem layered_tapeOf (text : String) : Tape.Layered (movesOf text) (tapeOf text) :=
  Tape.layered_after _ fun _ hop => wellBuilt_of_mem_movesOf hop

/-- The layer behind the one at position `k` is opened by a `TICK` that is executed when layer `k` is
the current one. -/
def OpenedByTick (ctx : Context) (acts : List Act) (k : Nat) : Prop :=
  ∃ done a rest line i, acts = done ++ a :: rest ∧ a.instruction? = some (line, i) ∧
    i.name = tickName ∧ (stateAfter ctx done).layer = k

theorem openedByTick_of_tickedAt {ctx : Context} {acts : List Act} {k : Nat}
    (h : Tape.TickedAt ctx (moves ctx acts) k) : OpenedByTick ctx acts k := by
  obtain ⟨earlier, later, hsplit, hk⟩ := h
  induction acts using List.reverseRecOn generalizing later with
  | nil => cases earlier <;> cases hsplit
  | append_singleton acts a ih =>
      rw [moves_concat] at hsplit
      rcases List.append_eq_append_iff.1 hsplit with ⟨made, hmade, hrest⟩ | ⟨made, hmade, hrest⟩
      · -- The `TICK` is a move of the last act, which makes no other move.
        have hmem : Move.tick ∈ a.moves ctx ((moves ctx acts).countP Move.measures) := by
          rw [hrest]
          exact List.mem_append_right _ List.mem_cons_self
        obtain ⟨line, i, hi, hname, hmoves⟩ := tick_mem_actMoves hmem
        rw [hmoves] at hrest
        have hnone : made = [] := by
          cases made with
          | nil => rfl
          | cons m more =>
              rw [List.cons_append, List.cons.injEq] at hrest
              exact absurd hrest.2.symm (by simp)
        rw [hnone, List.append_nil] at hmade
        refine ⟨acts, a, [], line, i, rfl, hi, hname, ?_⟩
        rw [← hk, hmade, ← tape_stateAfter]
        simp [State.layer, State.tape]
      · cases made with
        | nil =>
            rw [List.append_nil] at hmade
            have hmem : Move.tick ∈ a.moves ctx ((moves ctx acts).countP Move.measures) := by
              rw [← List.nil_append (a.moves _ _), ← hrest]
              exact List.mem_cons_self
            obtain ⟨line, i, hi, hname, -⟩ := tick_mem_actMoves hmem
            refine ⟨acts, a, [], line, i, rfl, hi, hname, ?_⟩
            rw [← hk, ← hmade, ← tape_stateAfter]
            simp [State.layer, State.tape]
        | cons m more =>
            rw [List.cons_append, List.cons.injEq] at hrest
            obtain ⟨rfl, -⟩ := hrest
            obtain ⟨done, b, rest, line, i, rfl, hb⟩ := ih more hmade
            exact ⟨done, b, rest ++ [a], line, i, by simp, hb⟩

/-- Layering is a faithful schedule, whether the run was halted or not: the layers hold the operations
that the executed instructions built, in that order; what shares a target within a layer is one and
the same action and does not measure; and no layer was opened without need. -/
theorem parse_layers_faithful (text : String) :
    let acts := course .standard (Source.normalize text.toList)
    let layers := (parse text).circuit.layers
    layers.flatMap (·.operations.toList) = (moves .standard acts).filterMap Move.operation? ∧
      (∀ l ∈ layers, l.operations.toList.Pairwise Operation.Compatible) ∧
      ∀ k earlier later, layers[k]? = some earlier → layers[k + 1]? = some later →
        OpenedByTick .standard acts k ∨
          ∃ op rest, later.operations.toList = op :: rest ∧
            ∃ a ∈ earlier.operations.toList, ¬a.Compatible op := by
  intro acts layers
  have h := layered_tapeOf text
  obtain ⟨rest, hrest, hempty⟩ := tapeOf_toList text
  have hops : (tapeOf text).schedule.operations =
      layers.map (·.operations.toList) ++ rest.map (·.operations.toList) := by
    rw [Schedule.operations, hrest, List.map_append, List.map_map]
    rfl
  refine ⟨?_, fun l hl => ?_, fun k earlier later he hl => ?_⟩
  · have hnone : (rest.map (·.operations.toList)).flatten = [] := by
      rw [List.flatten_eq_nil_iff]
      intro ops hops
      obtain ⟨l, hl, rfl⟩ := List.mem_map.1 hops
      have hl := hempty l hl
      simp only [Layer.isEmpty, Bool.and_eq_true, Array.isEmpty_iff] at hl
      rw [hl.1.1]
    have hcomplete := h.complete
    rw [hops, List.flatten_append, hnone, List.append_nil] at hcomplete
    exact hcomplete
  · have hmem : l.bare ∈ (tapeOf text).schedule.toList := by
      rw [hrest]
      exact List.mem_append_left _ (List.mem_map_of_mem hl)
    exact (h.sound l.bare hmem).compatible
  · have hat {j : Nat} {l : Layer} (hl : layers[j]? = some l) :
        (tapeOf text).schedule.operations[j]? = some l.operations.toList := by
      have hj := (List.getElem?_eq_some_iff.1 hl).1
      rw [hops, List.getElem?_append_left (by rwa [List.length_map]), List.getElem?_map, hl]
      rfl
    exact (h.opened k _ _ (hat he) (hat hl)).imp_left openedByTick_of_tickedAt

end Build

end StimOverlay
