import Mathlib.Data.List.Induction
import StimOverlay.Parse

/-! The course of a run. Building a block tree amounts to a flat sequence of acts, in which the body of
a repetition stands as often as it is built; a run performs the acts one by one, up to and including
the first that halts. Every act, halting or not, leaves a state behind, so the final state of a run is
a fold over the acts performed. -/

namespace StimOverlay

namespace Build

/-- A single step of a run. -/
inductive Act where
  | line (number : Nat) (text : List Char)
  /-- A header, a closing brace or the end of the input, for which no directive waits. -/
  | structural (number : Nat)
  | fault (number : Nat) (problem : Problem)

def State.perform (ctx : Context) (s : State) : Act → Step State
  | .line number text => s.buildLine ctx number text
  | .structural number => s.resolve number .other
  | .fault number problem => s.halt number problem

/-- The state that a step leaves behind, halting or not. -/
def leave : Step State → State
  | .ok s => s
  | .error h => h.state

def State.after (ctx : Context) (s : State) (a : Act) : State := leave (s.perform ctx a)

/-- The acts that a run performs, the last of which may halt it. -/
def performed (ctx : Context) : State → List Act → List Act
  | _, [] => []
  | s, a :: rest =>
      a :: match s.perform ctx a with
        | .ok t => performed ctx t rest
        | .error _ => []

/-- The state behind a list of acts. -/
def stateAfter (ctx : Context) (acts : List Act) : State := acts.foldl (State.after ctx) {}

end Build

open Build

mutual

/-- The acts of a block; the body of a repetition stands in them as often as it is built. -/
def Block.acts : Block → List Act
  | .line number text => [.line number text]
  | .repetition times start body (some close) =>
      .structural start :: (List.replicate times (Block.actsOf body)).flatten ++ [.structural close]
  | .repetition _ start body none =>
      .structural start :: Block.actsOf body ++ [.fault start .repeatUnclosed]
  | .strayClose number => [.structural number, .fault number .repeatUnopened]
  | .malformed number text => [.fault number (.repeatMalformed (String.ofList text))]

def Block.actsOf : List Block → List Act
  | [] => []
  | b :: rest => b.acts ++ Block.actsOf rest

end

namespace Build

/-- The acts performed in building the given lines, the last line being followed by the end of the
input. -/
def course (ctx : Context) (lines : List (List Char)) : List Act :=
  performed ctx {} (Block.actsOf (Block.ofLines lines) ++ [.structural lines.length])

theorem iterate_eq_foldlM (ctx : Context) (acts : List Act) (times : Nat) (s : State) :
    iterate (fun s => acts.foldlM (State.perform ctx) s) times s =
      (List.replicate times acts).flatten.foldlM (State.perform ctx) s := by
  induction times generalizing s with
  | zero => rfl
  | succ times ih =>
      rw [List.replicate_succ, List.flatten_cons, List.foldlM_append]
      simp only [iterate]
      exact bind_congr fun t => ih t

mutual

theorem runBlock_eq_foldlM (ctx : Context) (b : Block) (s : State) :
    runBlock ctx b s = b.acts.foldlM (State.perform ctx) s := by
  cases b with
  | line number text => simp [runBlock, Block.acts, State.perform]
  | repetition times start body close =>
      have hbody : runBlocks ctx body = fun s => (Block.actsOf body).foldlM (State.perform ctx) s :=
        funext fun s => runBlocks_eq_foldlM ctx body s
      cases close with
      | some close =>
          simp only [runBlock, Block.acts, List.cons_append, List.foldlM_cons, List.foldlM_append,
            List.foldlM_nil, bind_pure, State.perform, hbody, iterate_eq_foldlM]
      | none =>
          simp only [runBlock, Block.acts, List.cons_append, List.foldlM_cons, List.foldlM_append,
            List.foldlM_nil, bind_pure, State.perform, hbody]
  | strayClose number => simp [runBlock, Block.acts, State.perform]
  | malformed number text => simp [runBlock, Block.acts, State.perform]

theorem runBlocks_eq_foldlM (ctx : Context) (bs : List Block) (s : State) :
    runBlocks ctx bs s = (Block.actsOf bs).foldlM (State.perform ctx) s := by
  cases bs with
  | nil => rfl
  | cons b rest =>
      rw [runBlocks, Block.actsOf, List.foldlM_append, runBlock_eq_foldlM ctx b s]
      exact bind_congr fun t => runBlocks_eq_foldlM ctx rest t

end

theorem leave_foldlM (ctx : Context) (acts : List Act) (s : State) :
    leave (acts.foldlM (State.perform ctx) s) =
      (performed ctx s acts).foldl (State.after ctx) s := by
  induction acts generalizing s with
  | nil => rfl
  | cons a rest ih =>
      rw [List.foldlM_cons, performed, List.foldl_cons, State.after]
      cases h : s.perform ctx a with
      | ok t => exact ih t
      | error e => rfl

theorem runLines_eq_foldlM (ctx : Context) (lines : List (List Char)) :
    runLines ctx lines =
      (Block.actsOf (Block.ofLines lines) ++ [Act.structural lines.length]).foldlM
        (State.perform ctx) {} := by
  rw [runLines, runBlocks_eq_foldlM, List.foldlM_append]
  simp only [List.foldlM_cons, List.foldlM_nil, bind_pure, State.perform]

/-- A run ends in the state behind the acts that it performs. -/
theorem finalState_eq_stateAfter (ctx : Context) (lines : List (List Char)) :
    finalState ctx lines = stateAfter ctx (course ctx lines) := by
  rw [stateAfter, course, ← leave_foldlM, ← runLines_eq_foldlM, finalState]
  cases runLines ctx lines <;> rfl

@[simp] theorem stateAfter_concat (ctx : Context) (acts : List Act) (a : Act) :
    stateAfter ctx (acts ++ [a]) = (stateAfter ctx acts).after ctx a := by
  rw [stateAfter, List.foldl_append]
  rfl

/-- What holds at the start and is kept by every act holds behind every list of acts. -/
theorem stateAfter_induction {ctx : Context} {P : List Act → State → Prop} (start : P [] {})
    (step : ∀ acts a s, P acts s → P (acts ++ [a]) (s.after ctx a)) (acts : List Act) :
    P acts (stateAfter ctx acts) := by
  induction acts using List.reverseRecOn with
  | nil => exact start
  | append_singleton acts a ih =>
      rw [stateAfter_concat]
      exact step acts a _ ih

end Build

end StimOverlay
