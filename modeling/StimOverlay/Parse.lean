import StimOverlay.Build.Completion
import StimOverlay.Build.Run
import StimOverlay.Gate.Standard

/-! Parsing circuit text. The outcome is always a circuit, complete or up to the first error, together
with all diagnostics and the text in normal form, in which made-up polygon headers have been
inserted. Line numbers refer to that text. -/

namespace StimOverlay

structure Parsed where
  circuit : Circuit
  diagnostics : List Diagnostic
  text : String

namespace Parsed

def hasErrors (p : Parsed) : Bool := p.diagnostics.any Diagnostic.isError

/-- Where a source line ends up when a header is inserted in front of each of the given lines. -/
def shiftLine (inserted : List Nat) (line : Nat) : Nat :=
  line + inserted.countP (· ≤ line)

/-- Moves a polygon to the lines of the text with inserted headers; a made-up header is the line in
front of the body. -/
def shiftOverlay (inserted : List Nat) : Overlay → Overlay
  | .polygon p =>
      let bodyLine := shiftLine inserted p.bodyLine
      let headerLine :=
        if p.madeUpHeader then bodyLine - 1 else shiftLine inserted p.headerLine
      .polygon { p with headerLine, bodyLine }
  | o => o

/-- The lines with the headers inserted, the first line having the given number. -/
def insertHeaders (headers : List Build.MadeUpHeader) (number : Nat) :
    List (List Char) → List (List Char)
  | [] => []
  | line :: rest =>
      (headers.filter (·.line == number)).map (·.text.toList) ++
        line :: insertHeaders headers (number + 1) rest

/-- The outcome of building the given lines. -/
def ofState (lines : List (List Char)) (s : Build.State) : Parsed :=
  let headers := s.headers.toList
  let inserted := headers.map (·.line)
  let circuit := s.circuit.finish
  { circuit := { circuit with
      schedule := circuit.schedule.map fun l =>
        { l with overlays := l.overlays.map (shiftOverlay inserted) } }
    diagnostics := s.diagnostics.toList.map fun d => { d with line := shiftLine inserted d.line }
    text := String.ofList
      (Source.restorePragmas (Text.joinWith ['\n'] (insertHeaders headers 1 lines))) }

end Parsed

/-- Parses a text with a catalog of gates and the severity of unknown directives. -/
def parseWith (ctx : Build.Context) (text : String) : Parsed :=
  let lines := Source.normalize text.toList
  Parsed.ofState lines (Build.finalState ctx lines)

/-- Known gates are the standard ones, and unknown directives are errors. -/
def Build.Context.standard : Build.Context := ⟨.standard, .error⟩

/-- Parses a text with the standard gates. -/
def parse (text : String) : Parsed := parseWith .standard text

end StimOverlay
