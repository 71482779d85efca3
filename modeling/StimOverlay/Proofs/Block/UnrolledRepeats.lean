import StimOverlay.Proofs.Run.ActSequence

/-! Unrolled repetitions. Written out, a repetition is as many copies of its body as its header says,
without the header and the closing brace. A run that is not halted in its blocks builds exactly the lines
that are left, one after another: headers and closing braces change nothing, because a directive that
waited in front of one of them would have halted the run there. -/

namespace StimOverlay

open Build

namespace Block

/-- Lines, the first of which has the given number, written out without repetitions. Every line keeps
the number that it has in the source. -/
inductive Unrolls : Nat → List (List Char) → List (Nat × List Char) → Prop where
  | nil (number : Nat) : Unrolls number [] []
  | line {number : Nat} {text : List Char} {rest : List (List Char)} {flat : List (Nat × List Char)}
      (plain : mark (Text.trim text) = .plain) (tail : Unrolls (number + 1) rest flat) :
      Unrolls number (text :: rest) ((number, text) :: flat)
  | repetition {number times : Nat} {header close : List Char} {body rest : List (List Char)}
      {inner flat : List (Nat × List Char)}
      (opening : mark (Text.trim header) = .header times) (inside : Unrolls (number + 1) body inner)
      (closing : mark (Text.trim close) = .close)
      (tail : Unrolls (number + body.length + 2) rest flat) :
      Unrolls number (header :: (body ++ close :: rest))
        ((List.replicate times inner).flatten ++ flat)

/-- Lines, the first of which has the given number, and the acts in which they are built if the block
structure is sound. -/
inductive Enacts : Nat → List (List Char) → List Act → Prop where
  | nil (number : Nat) : Enacts number [] []
  | line {number : Nat} {text : List Char} {rest : List (List Char)} {acts : List Act}
      (plain : mark (Text.trim text) = .plain) (tail : Enacts (number + 1) rest acts) :
      Enacts number (text :: rest) (.line number text :: acts)
  | repetition {number times : Nat} {header close : List Char} {body rest : List (List Char)}
      {round acts : List Act}
      (opening : mark (Text.trim header) = .header times) (inside : Enacts (number + 1) body round)
      (closing : mark (Text.trim close) = .close)
      (tail : Enacts (number + body.length + 2) rest acts) :
      Enacts number (header :: (body ++ close :: rest))
        (.structural number :: (List.replicate times round).flatten ++
          .structural (number + body.length + 1) :: acts)

end Block

/-- The line that an act builds, if it is the act of a line. -/
def Build.Act.line? : Act → Option (Nat × List Char)
  | .line number text => some (number, text)
  | _ => none

namespace Block

/-- The lines of blocks in the order in which they are built. -/
def linesOf (bs : List Block) : List (Nat × List Char) := (actsOf bs).filterMap Act.line?

/-- Lines that are written out are those of the acts. -/
theorem Unrolls.exists_enacts {number : Nat} {lines : List (List Char)}
    {flat : List (Nat × List Char)} (h : Unrolls number lines flat) :
    ∃ acts, Enacts number lines acts ∧ acts.filterMap Act.line? = flat := by
  induction h with
  | nil number => exact ⟨[], .nil number, rfl⟩
  | line plain _ ih =>
      obtain ⟨acts, hacts, rfl⟩ := ih
      exact ⟨_, .line plain hacts, rfl⟩
  | repetition opening _ closing _ ihi iht =>
      obtain ⟨round, hround, rfl⟩ := ihi
      obtain ⟨acts, hacts, rfl⟩ := iht
      refine ⟨_, .repetition opening hround closing hacts, ?_⟩
      simp only [List.cons_append, List.filterMap_append, List.filterMap_cons,
        List.filterMap_flatten, List.map_replicate, Act.line?]

theorem readFrom_append (d : Draft) (number : Nat) (xs ys : List (List Char)) :
    readFrom d number (xs ++ ys) = readFrom (readFrom d number xs) (number + xs.length) ys := by
  induction xs generalizing d number with
  | nil => rfl
  | cons text xs ih =>
      rw [List.cons_append, readFrom, readFrom, ih, List.length_cons, Nat.add_right_comm,
        Nat.add_assoc]

theorem Draft.read_plain {number : Nat} {text : List Char} (h : mark (Text.trim text) = .plain)
    (d : Draft) : d.read number text = d.add (.line number text) := by
  rw [Draft.read, h]

theorem Draft.read_header {number times : Nat} {text : List Char}
    (h : mark (Text.trim text) = .header times) (d : Draft) :
    d.read number text = ⟨⟨times, number, d.level⟩ :: d.enclosing, #[]⟩ := by
  rw [Draft.read, h]

theorem Draft.read_close {number : Nat} {text : List Char} (h : mark (Text.trim text) = .close)
    (d : Draft) : d.read number text = d.close number := by
  rw [Draft.read, h]

theorem Draft.read_malformed {number : Nat} {text : List Char}
    (h : mark (Text.trim text) = .malformedHeader) (d : Draft) :
    d.read number text = d.add (.malformed number (Text.trim text)) := by
  rw [Draft.read, h]

/-- Lines of a sound block structure add whole blocks to the current level, whatever is open. -/
theorem Enacts.blocks {number : Nat} {lines : List (List Char)} {acts : List Act}
    (h : Enacts number lines acts) :
    ∃ bs, actsOf bs = acts ∧
      ∀ d : Draft, readFrom d number lines = { d with level := d.level ++ bs.toArray } := by
  induction h with
  | nil number => exact ⟨[], rfl, fun d => by simp [readFrom]⟩
  | @line number text rest acts plain tail ih =>
      obtain ⟨bs, rfl, hread⟩ := ih
      refine ⟨.line number text :: bs, rfl, fun d => ?_⟩
      rw [readFrom, Draft.read_plain plain, hread]
      simp [Draft.add]
  | @repetition number times header close body rest round acts opening inside closing tail ihi iht =>
      obtain ⟨round, rfl, hround⟩ := ihi
      obtain ⟨bs, rfl, hread⟩ := iht
      refine ⟨.repetition times number round (some (number + body.length + 1)) :: bs, ?_, fun d => ?_⟩
      · simp [actsOf, Block.acts]
      · rw [readFrom, Draft.read_header opening, readFrom_append, hround, readFrom,
          Draft.read_close closing]
        rw [show number + 1 + body.length + 1 = number + body.length + 2 by omega, hread]
        simp [Draft.close, Nat.add_right_comm]

theorem Enacts.eq_actsOf {lines : List (List Char)} {acts : List Act} (h : Enacts 1 lines acts) :
    acts = actsOf (ofLines lines) := by
  obtain ⟨bs, rfl, hread⟩ := h.blocks
  rw [ofLines, hread]
  simp [Draft.finish]

/-- Lines that can be written out add whole blocks to the current level, whatever is open. -/
theorem Unrolls.blocks {number : Nat} {lines : List (List Char)} {flat : List (Nat × List Char)}
    (h : Unrolls number lines flat) :
    ∃ bs, linesOf bs = flat ∧
      ∀ d : Draft, readFrom d number lines = { d with level := d.level ++ bs.toArray } := by
  obtain ⟨acts, hacts, rfl⟩ := h.exists_enacts
  obtain ⟨bs, rfl, hread⟩ := hacts.blocks
  exact ⟨bs, rfl, hread⟩

theorem Unrolls.eq_linesOf {lines : List (List Char)} {flat : List (Nat × List Char)}
    (h : Unrolls 1 lines flat) : flat = linesOf (ofLines lines) := by
  obtain ⟨bs, rfl, hread⟩ := h.blocks
  rw [ofLines, hread]
  simp [Draft.finish]

mutual

/-- A block that nothing is wrong with, as far as it is built. -/
def Regular : Block → Prop
  | .line .. => True
  | .repetition times _ body (some _) => 0 < times → AllRegular body
  | .repetition _ _ _ none => False
  | .strayClose _ => False
  | .malformed .. => False

def AllRegular : List Block → Prop
  | [] => True
  | b :: rest => Regular b ∧ AllRegular rest

end

theorem allRegular_append {xs ys : List Block} :
    AllRegular (xs ++ ys) ↔ AllRegular xs ∧ AllRegular ys := by
  induction xs with
  | nil => simp [AllRegular]
  | cons b xs ih => rw [List.cons_append, AllRegular, AllRegular, ih, and_assoc]

theorem allRegular_concat {xs : List Block} {b : Block} :
    AllRegular (xs ++ [b]) ↔ AllRegular xs ∧ Regular b := by
  rw [allRegular_append, AllRegular, AllRegular, and_true]

/-- All blocks of a draft that are complete are regular. -/
def Draft.Regular (d : Draft) : Prop :=
  AllRegular d.level.toList ∧ ∀ o ∈ d.enclosing, AllRegular o.before.toList

theorem Draft.regular_add {d : Draft} {b : Block} (h : (d.add b).Regular) :
    d.Regular ∧ b.Regular := by
  obtain ⟨hlevel, henclosing⟩ := h
  rw [Draft.add, Array.toList_push, allRegular_concat] at hlevel
  exact ⟨⟨hlevel.1, henclosing⟩, hlevel.2⟩

/-- All open blocks are to be built at least once. -/
def Draft.Positive (d : Draft) : Prop := ∀ o ∈ d.enclosing, 0 < o.times

theorem times_pos_of_count? {rest : List Char} {times : Nat} (h : count? rest = some times) :
    0 < times := by
  have hpositive (body : Option (List Char)) (hbody : (body.bind fun body =>
      (Text.dropLast? '\x7b' (Text.trim body)).bind fun number =>
        (Numeric.readNat? countBound (Text.trim number)).filter (0 < ·)) = some times) :
      0 < times := by
    obtain ⟨body, -, hbody⟩ := Option.bind_eq_some_iff.1 hbody
    obtain ⟨number, -, hnumber⟩ := Option.bind_eq_some_iff.1 hbody
    exact of_decide_eq_true (Option.filter_eq_some_iff.1 hnumber).2
  simp only [count?, Option.bind_eq_bind] at h
  split at h
  · exact hpositive _ h
  · exact hpositive _ h

theorem times_pos_of_header {s : List Char} {times : Nat} (h : mark s = .header times) :
    0 < times := by
  unfold mark at h
  split at h
  · cases h
  · split at h
    · cases h
    · split at h
      · rename_i hcount
        cases h
        exact times_pos_of_count? hcount
      · cases h

theorem Draft.Positive.read {d : Draft} (h : d.Positive) (number : Nat) (text : List Char) :
    (d.read number text).Positive := by
  cases hmark : mark (Text.trim text) with
  | plain =>
      rw [read_plain hmark]
      exact h
  | close =>
      rw [read_close hmark]
      obtain ⟨enclosing, level⟩ := d
      cases enclosing with
      | nil => exact h
      | cons o outer => exact fun o' ho' => h o' (List.mem_cons_of_mem _ ho')
  | header times =>
      rw [read_header hmark]
      exact List.forall_mem_cons.2 ⟨times_pos_of_header hmark, h⟩
  | malformedHeader =>
      rw [read_malformed hmark]
      exact h

/-- Reading on does not mend what is wrong with a draft. -/
theorem Draft.regular_of_read {d : Draft} (hd : d.Positive) {number : Nat} {text : List Char}
    (h : (d.read number text).Regular) : d.Regular := by
  cases hmark : mark (Text.trim text) with
  | plain =>
      rw [read_plain hmark] at h
      exact (regular_add h).1
  | close =>
      rw [read_close hmark] at h
      obtain ⟨enclosing, level⟩ := d
      cases enclosing with
      | nil => exact (regular_add h).1
      | cons o outer =>
          obtain ⟨hlevel, henclosing⟩ := h
          simp only [Draft.close, Array.toList_push, allRegular_concat, Block.Regular] at hlevel
          exact ⟨hlevel.2 (hd o List.mem_cons_self), List.forall_mem_cons.2 ⟨hlevel.1, henclosing⟩⟩
  | header times =>
      rw [read_header hmark] at h
      exact List.forall_mem_cons.1 h.2
  | malformedHeader =>
      rw [read_malformed hmark] at h
      exact (regular_add h).1

theorem Draft.regular_of_readFrom {lines : List (List Char)} {d : Draft} (hd : d.Positive)
    {number : Nat} (h : (readFrom d number lines).Regular) : d.Regular := by
  induction lines generalizing d number with
  | nil => exact h
  | cons text rest ih => exact regular_of_read hd (ih (hd.read number text) h)

/-- Lines that close all blocks and are regular throughout can be written out. While a block is open,
they start with what is left of it. -/
theorem exists_unrolls (lines : List (List Char)) {number : Nat} {d : Draft} (hd : d.Positive)
    (hregular : (readFrom d number lines).Regular)
    (hclosed : (readFrom d number lines).enclosing = []) :
    (d.enclosing = [] → ∃ flat, Unrolls number lines flat) ∧
      (d.enclosing ≠ [] → ∃ body close rest inner, lines = body ++ close :: rest ∧
        mark (Text.trim close) = .close ∧ Unrolls number body inner) := by
  match lines with
  | [] => exact ⟨fun _ => ⟨[], .nil number⟩, fun hopen => absurd hclosed hopen⟩
  | text :: rest =>
      have hread := Draft.regular_of_readFrom (hd.read number text) hregular
      cases hmark : mark (Text.trim text) with
      | plain =>
          rw [readFrom, Draft.read_plain hmark] at hregular hclosed
          obtain ⟨hflat, hopen⟩ := exists_unrolls rest (d := d.add _) hd hregular hclosed
          refine ⟨fun hnil => ?_, fun hne => ?_⟩
          · obtain ⟨flat, hrest⟩ := hflat hnil
            exact ⟨_, .line hmark hrest⟩
          · obtain ⟨body, close, after, inner, rfl, hclose, hbody⟩ := hopen hne
            exact ⟨text :: body, close, after, _, rfl, hclose, .line hmark hbody⟩
      | close =>
          refine ⟨fun hnil => ?_, fun _ => ⟨[], text, rest, [], rfl, hmark, .nil number⟩⟩
          rw [Draft.read_close hmark, Draft.close, hnil] at hread
          exact absurd (Draft.regular_add hread).2 (by simp [Regular])
      | malformedHeader =>
          rw [Draft.read_malformed hmark] at hread
          exact absurd (Draft.regular_add hread).2 (by simp [Regular])
      | header times =>
          have hpositive := hd.read number text
          rw [readFrom, Draft.read_header hmark] at hregular hclosed
          rw [Draft.read_header hmark] at hpositive
          obtain ⟨body, close, after, inner, hrest, hclose, hbody⟩ :=
            (exists_unrolls rest hpositive hregular hclosed).2 (List.cons_ne_nil _ _)
          have hshorter : after.length < (text :: rest).length := by
            rw [hrest, List.length_cons, List.length_append, List.length_cons]
            omega
          rw [hrest] at hregular hclosed ⊢
          -- The closing brace is behind us: the rest is read with the blocks that were open before.
          obtain ⟨bs, -, hblocks⟩ := hbody.blocks
          rw [readFrom_append, hblocks, readFrom, Draft.read_close hclose] at hregular hclosed
          rw [show number + 1 + body.length + 1 = number + body.length + 2 by omega] at hregular hclosed
          obtain ⟨hflat, hopen⟩ := exists_unrolls after (d := ⟨d.enclosing, d.level.push _⟩) hd
            hregular hclosed
          refine ⟨fun hnil => ?_, fun hne => ?_⟩
          · obtain ⟨flat, hafter⟩ := hflat hnil
            exact ⟨_, .repetition hmark hbody hclose hafter⟩
          · obtain ⟨more, last, later, inner', rfl, hlast, hmore⟩ := hopen hne
            exact ⟨text :: (body ++ close :: more), last, later, _, by simp, hlast,
              .repetition hmark hbody hclose hmore⟩
termination_by lines.length
decreasing_by
  · exact Nat.lt_succ_self _
  · exact Nat.lt_succ_self _
  · exact hshorter

/-- A tree that is regular throughout has no open blocks left. -/
theorem regular_of_finish {d : Draft} (h : AllRegular d.finish) : d.Regular ∧ d.enclosing = [] := by
  obtain ⟨enclosing, level⟩ := d
  suffices hnil : enclosing = [] by
    subst hnil
    exact ⟨⟨h, fun o ho => absurd ho List.not_mem_nil⟩, rfl⟩
  -- The outermost open block is the last one of the tree, and has no close.
  rcases List.eq_nil_or_concat enclosing with hnil | ⟨inner, o, rfl⟩
  · exact hnil
  · rw [Draft.finish, List.concat_eq_append, List.foldl_append, List.foldl_cons, List.foldl_nil,
      Array.toList_push, allRegular_concat] at h
    exact absurd h.2 (by simp [Regular])

end Block

namespace Build

open Block

theorem bind_eq_ok_iff {x : Step α} {f : α → Step β} {b : β} :
    x >>= f = .ok b ↔ ∃ a, x = .ok a ∧ f a = .ok b := by
  cases x with
  | ok a => exact ⟨fun h => ⟨a, rfl, h⟩, fun ⟨_, ha, h⟩ => Except.ok.inj ha ▸ h⟩
  | error e =>
      refine ⟨fun h => ?_, fun ⟨_, ha, _⟩ => ?_⟩
      · cases h
      · cases ha

theorem exists_ok_of_bind {x : Step α} {f : α → Step β} {b : β} (h : x >>= f = .ok b) :
    ∃ a, x = .ok a ∧ f a = .ok b := bind_eq_ok_iff.1 h

/-- Nothing waits for a line of another kind. -/
theorem resolve_other_eq_ok {s t : State} {number : Nat} (h : s.resolve number .other = .ok t) :
    t = s := by
  obtain ⟨circuit, diagnostics, anchor, contentSeen, record, detectors, headers⟩ := s
  cases anchor with
  | free =>
      cases h
      rfl
  | coordinates => cases h
  | gate => cases h
  | polygon => cases h

/-- The state behind lines that are built one after another. -/
def buildLines (ctx : Context) (s : State) (lines : List (Nat × List Char)) : Step State :=
  lines.foldlM (fun s line => s.buildLine ctx line.1 line.2) s

/-- Of acts that are all performed, only those of lines matter. -/
theorem buildLines_of_performed {ctx : Context} {acts : List Act} {s t : State}
    (h : acts.foldlM (State.perform ctx) s = .ok t) :
    buildLines ctx s (acts.filterMap Act.line?) = .ok t := by
  induction acts generalizing s with
  | nil => exact h
  | cons a acts ih =>
      rw [List.foldlM_cons] at h
      cases hstep : s.perform ctx a with
      | error e =>
          rw [hstep] at h
          cases h
      | ok next =>
          rw [hstep] at h
          cases a with
          | line number text =>
              rw [List.filterMap_cons, Act.line?, buildLines, List.foldlM_cons]
              rw [State.perform] at hstep
              rw [hstep]
              exact ih h
          | structural number =>
              obtain rfl := resolve_other_eq_ok hstep
              exact ih h
          | fault number problem => cases hstep

theorem exists_ok_of_iterate {step : State → Step State} {times : Nat} (htimes : 0 < times)
    {s t : State} (h : iterate step times s = .ok t) : ∃ u, step s = .ok u := by
  obtain ⟨times, rfl⟩ := Nat.exists_eq_succ_of_ne_zero (Nat.ne_of_gt htimes)
  obtain ⟨u, hu, -⟩ := exists_ok_of_bind h
  exact ⟨u, hu⟩

mutual

/-- What is built without being halted is regular. -/
theorem regular_of_runBlock {ctx : Context} {b : Block} {s t : State}
    (h : runBlock ctx b s = .ok t) : b.Regular := by
  cases b with
  | line number text => trivial
  | repetition times start body close =>
      cases close with
      | some close =>
          intro htimes
          rw [runBlock] at h
          obtain ⟨u, -, h⟩ := exists_ok_of_bind h
          obtain ⟨v, hbody, -⟩ := exists_ok_of_bind h
          obtain ⟨w, hw⟩ := exists_ok_of_iterate htimes hbody
          exact allRegular_of_runBlocks hw
      | none =>
          rw [runBlock] at h
          obtain ⟨u, -, h⟩ := exists_ok_of_bind h
          obtain ⟨v, -, h⟩ := exists_ok_of_bind h
          cases h
  | strayClose number =>
      rw [runBlock] at h
      obtain ⟨u, -, h⟩ := exists_ok_of_bind h
      cases h
  | malformed number text => cases h

theorem allRegular_of_runBlocks {ctx : Context} {bs : List Block} {s t : State}
    (h : runBlocks ctx bs s = .ok t) : AllRegular bs := by
  cases bs with
  | nil => trivial
  | cons b rest =>
      rw [runBlocks] at h
      obtain ⟨u, hb, hrest⟩ := exists_ok_of_bind h
      exact ⟨regular_of_runBlock hb, allRegular_of_runBlocks hrest⟩

end

/-- Replaying repetitions is unrolling them: a run over the blocks of some lines that is not halted ends
in the state in which the lines that are left, when all repetitions are written out, end when they are
built one after another. There is exactly one way to write them out. -/
theorem runBlocks_eq_unrolled (ctx : Context) {lines : List (List Char)} {s : State}
    (h : runBlocks ctx (ofLines lines) {} = .ok s) :
    ∃ flat, Unrolls 1 lines flat ∧ (∀ other, Unrolls 1 lines other → other = flat) ∧
      buildLines ctx {} flat = .ok s := by
  have hregular : (readFrom {} 1 lines).Regular ∧ (readFrom {} 1 lines).enclosing = [] :=
    regular_of_finish (allRegular_of_runBlocks h)
  have hstart : ({} : Draft).Positive := fun o ho => absurd ho List.not_mem_nil
  obtain ⟨flat, hflat⟩ := (exists_unrolls lines hstart hregular.1 hregular.2).1 rfl
  refine ⟨flat, hflat, fun other hother => hother.eq_linesOf.trans hflat.eq_linesOf.symm, ?_⟩
  rw [hflat.eq_linesOf]
  rw [runBlocks_eq_foldlM] at h
  exact buildLines_of_performed h

/-- A repetition in a repetition. -/
theorem unrolled_nested :
    let lines := ["REPEAT 2 \x7b", "M 0", "REPEAT 2 \x7b", "H 1", "\x7d", "\x7d"].map String.toList
    let flat := [(2, "M 0"), (4, "H 1"), (4, "H 1"), (2, "M 0"), (4, "H 1"), (4, "H 1")].map
      fun line => (line.1, line.2.toList)
    ∃ s, runBlocks .standard (ofLines lines) {} = .ok s ∧ buildLines .standard {} flat = .ok s := by
  intro lines flat
  have hruns : (runBlocks .standard (ofLines lines) {}).isOk := by decide +kernel
  cases hrun : runBlocks .standard (ofLines lines) {} with
  | error e =>
      rw [hrun] at hruns
      cases hruns
  | ok s =>
      obtain ⟨unrolled, -, hunique, hbuild⟩ := runBlocks_eq_unrolled .standard hrun
      have hopening : mark (Text.trim "REPEAT 2 \x7b".toList) = .header 2 := by decide +kernel
      have hclosing : mark (Text.trim "\x7d".toList) = .close := by decide +kernel
      have hinner : Unrolls 3
          ("REPEAT 2 \x7b".toList :: (["H 1".toList] ++ "\x7d".toList :: []))
          ((List.replicate 2 [(4, "H 1".toList)]).flatten ++ []) :=
        .repetition hopening (.line (by decide +kernel) (.nil _)) hclosing (.nil _)
      have hflat : Unrolls 1
          ("REPEAT 2 \x7b".toList ::
            (("M 0".toList :: "REPEAT 2 \x7b".toList :: ["H 1".toList, "\x7d".toList]) ++
              "\x7d".toList :: []))
          ((List.replicate 2 ((2, "M 0".toList) ::
            ((List.replicate 2 [(4, "H 1".toList)]).flatten ++ []))).flatten ++ []) :=
        .repetition hopening (.line (by decide +kernel) hinner) hclosing (.nil _)
      have hsame : flat = unrolled := hunique _ hflat
      exact ⟨s, rfl, hsame ▸ hbuild⟩

end Build

end StimOverlay
