import StimOverlay.Proofs.Block.UnrolledRepeats

/-! Behind a fatal line. What has been read of a block tree is a sequence of acts already, in which every
open block is gone through once; reading on only adds to it. So a run that comes to a halt in front of
the end of its lines comes to the same halt whatever lines follow. -/

namespace StimOverlay

open Build

namespace Block

theorem actsOf_append (bs cs : List Block) : actsOf (bs ++ cs) = actsOf bs ++ actsOf cs := by
  induction bs with
  | nil => rfl
  | cons b bs ih => rw [List.cons_append, actsOf, ih, actsOf, List.append_assoc]

theorem actsOf_concat (bs : List Block) (b : Block) : actsOf (bs ++ [b]) = actsOf bs ++ b.acts := by
  rw [actsOf_append, actsOf, actsOf, List.append_nil]

/-- The acts up to the current level: those in front of each open block, and its header. -/
def openActs : List Open → List Act
  | [] => []
  | o :: outer => openActs outer ++ actsOf o.before.toList ++ [.structural o.start]

namespace Draft

/-- The acts of everything read. -/
def acts (d : Draft) : List Act := openActs d.enclosing ++ actsOf d.level.toList

theorem acts_add (d : Draft) (b : Block) : (d.add b).acts = d.acts ++ b.acts := by
  rw [acts, add, Array.toList_push, actsOf_concat, ← List.append_assoc, acts]

/-- Blocks that are never closed are gone through once, and each is a fault at its header. -/
theorem actsOf_finish (d : Draft) : actsOf d.finish =
    d.acts ++ d.enclosing.map fun o => .fault o.start .repeatUnclosed := by
  obtain ⟨enclosing, level⟩ := d
  induction enclosing generalizing level with
  | nil => simp [finish, acts, openActs]
  | cons o outer ih =>
      have houter := ih (o.before.push (.repetition o.times o.start level.toList none))
      rw [show finish ⟨o :: outer, level⟩ =
        finish ⟨outer, o.before.push (.repetition o.times o.start level.toList none)⟩ from rfl, houter]
      simp [acts, openActs, actsOf_concat, Block.acts]

/-- The body of a block that has been read stands at the start of its first round. -/
theorem acts_prefix_close {d : Draft} (hd : d.Positive) (number : Nat) :
    d.acts <+: (d.close number).acts := by
  obtain ⟨enclosing, level⟩ := d
  cases enclosing with
  | nil => exact ⟨_, (acts_add _ _).symm⟩
  | cons o outer =>
      obtain ⟨times, htimes⟩ := Nat.exists_eq_succ_of_ne_zero
        (Nat.ne_of_gt (hd o List.mem_cons_self))
      refine ⟨(List.replicate times (actsOf level.toList)).flatten ++ [.structural number], ?_⟩
      simp [acts, openActs, close, actsOf_concat, Block.acts, htimes, List.replicate_succ]

theorem acts_prefix_read {d : Draft} (hd : d.Positive) (number : Nat) (text : List Char) :
    d.acts <+: (d.read number text).acts := by
  cases hmark : mark (Text.trim text) with
  | plain =>
      rw [read_plain hmark, acts_add]
      exact List.prefix_append _ _
  | close =>
      rw [read_close hmark]
      exact acts_prefix_close hd number
  | header times =>
      rw [read_header hmark]
      exact ⟨[.structural number], by simp [acts, openActs, actsOf]⟩
  | malformedHeader =>
      rw [read_malformed hmark, acts_add]
      exact List.prefix_append _ _

theorem positive_start : ({} : Draft).Positive := fun _ ho => absurd ho List.not_mem_nil

theorem Positive.readFrom {d : Draft} (hd : d.Positive) (number : Nat) (lines : List (List Char)) :
    (Block.readFrom d number lines).Positive := by
  induction lines generalizing d number with
  | nil => exact hd
  | cons text lines ih => exact ih (hd.read number text) (number + 1)

theorem acts_prefix_readFrom {d : Draft} (hd : d.Positive) (number : Nat)
    (lines : List (List Char)) : d.acts <+: (readFrom d number lines).acts := by
  induction lines generalizing d number with
  | nil => exact List.prefix_refl _
  | cons text lines ih =>
      exact (acts_prefix_read hd number text).trans (ih (hd.read number text) (number + 1))

end Draft

end Block

namespace Build

open Block

theorem foldlM_of_prefix {ctx : Context} {acts more : List Act} (hstarts : acts <+: more)
    {s : State} {e : Halted} (h : acts.foldlM (State.perform ctx) s = .error e) :
    more.foldlM (State.perform ctx) s = .error e := by
  obtain ⟨rest, rfl⟩ := hstarts
  rw [List.foldlM_append, h]
  rfl

/-- A fatal line is the last one that matters: if a run over some lines is halted, and not because a
repetition is never closed, then it is halted in the same state when other lines follow. -/
theorem runBlocks_append_of_halted (ctx : Context) {lines : List (List Char)} {e : Halted}
    (h : runBlocks ctx (ofLines lines) {} = .error e)
    (hfatal : e.state.diagnostics.back?.map (·.problem.code) ≠ some "REP002")
    (more : List (List Char)) : runBlocks ctx (ofLines (lines ++ more)) {} = .error e := by
  rw [runBlocks_eq_foldlM, ofLines, Draft.actsOf_finish] at h ⊢
  have hread : ((readFrom {} 1 lines).acts).foldlM (State.perform ctx) {} = .error e := by
    rw [List.foldlM_append] at h
    cases hacts : (readFrom {} 1 lines).acts.foldlM (State.perform ctx) {} with
    | error e' =>
        rw [hacts] at h
        exact h
    | ok s =>
        -- Only the faults of open blocks are left, the first of which is the one that is excluded.
        rw [hacts] at h
        cases hopen : (readFrom {} 1 lines).enclosing with
        | nil =>
            rw [hopen] at h
            cases h
        | cons o outer =>
            rw [hopen] at h
            cases h
            exact absurd (by simp [State.report, Problem.code]) hfatal
  have hpositive := Draft.positive_start.readFrom 1 lines
  have hstarts := Draft.acts_prefix_readFrom hpositive (1 + lines.length) more
  rw [← readFrom_append] at hstarts
  exact foldlM_of_prefix (hstarts.trans (List.prefix_append _ _)) hread

/-- A block that is left open at first, and closed by what follows. -/
theorem halted_in_open_block :
    let lines := ["REPEAT 3 \x7b", "H 0", "CX 5 5"].map String.toList
    let more := ["\x7d", "M 0", "\x7d"].map String.toList
    ∃ e, runBlocks .standard (ofLines lines) {} = .error e ∧
      e.state.diagnostics.back?.map (·.problem.code) ≠ some "REP002" ∧
        runBlocks .standard (ofLines (lines ++ more)) {} = .error e := by
  intro lines more
  have hhalted : (runBlocks .standard (ofLines lines) {}).isOk = false := by decide +kernel
  have hcode : (leave (runBlocks .standard (ofLines lines) {})).diagnostics.back?.map
      (·.problem.code) = some "GATE003" := by
    decide +kernel
  cases hrun : runBlocks .standard (ofLines lines) {} with
  | ok s =>
      rw [hrun] at hhalted
      cases hhalted
  | error e =>
      rw [hrun, leave] at hcode
      have hfatal : e.state.diagnostics.back?.map (·.problem.code) ≠ some "REP002" := by
        rw [hcode]
        decide
      exact ⟨e, rfl, hfatal, runBlocks_append_of_halted .standard hrun hfatal more⟩

end Build

end StimOverlay
