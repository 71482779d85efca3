import StimOverlay.Block
import StimOverlay.Build.Line

/-! Building a block tree. The body of a repetition is built as often as its header says; the header
and every closing brace count as lines that no directive waits for. -/

namespace StimOverlay.Build

/-- Does a step the given number of times, up to the first error. -/
def iterate (step : State → Step State) : Nat → State → Step State
  | 0, s => .ok s
  | times + 1, s => step s >>= iterate step times

mutual

def runBlock (ctx : Context) : Block → State → Step State
  | .line number text, s => s.buildLine ctx number text
  | .repetition times start body (some close), s => do
      let s ← s.resolve start .other
      let s ← iterate (runBlocks ctx body) times s
      s.resolve close .other
  | .repetition _ start body none, s => do
      let s ← s.resolve start .other
      let s ← runBlocks ctx body s
      s.halt start .repeatUnclosed
  | .strayClose number, s => do
      let s ← s.resolve number .other
      s.halt number .repeatUnopened
  | .malformed number text, s => s.halt number (.repeatMalformed (String.ofList text))

def runBlocks (ctx : Context) : List Block → State → Step State
  | [], s => .ok s
  | b :: rest, s => runBlock ctx b s >>= runBlocks ctx rest

end

/-- Builds all lines, and resolves what still waits at their end. -/
def runLines (ctx : Context) (lines : List (List Char)) : Step State := do
  let s ← runBlocks ctx (Block.ofLines lines) {}
  s.resolve lines.length .other

/-- The state in which building ends, whether it was halted or not. -/
def finalState (ctx : Context) (lines : List (List Char)) : State :=
  match runLines ctx lines with
  | .ok s => s
  | .error h => h.state

end StimOverlay.Build
