import StimOverlay.Command.Host
import StimOverlay.Command.Invocation
import StimOverlay.Config.Environment
import StimOverlay.Emission.Text
import StimOverlay.Report.Text
import StimOverlay.ShareLink

/-! Running commands. Each reads one circuit, reports its diagnostics, and prints or writes the result;
the first failure ends it. -/

namespace StimOverlay

/-- How circuits are judged under a configuration. -/
def Config.context (c : Config) : Build.Context := ⟨.standard, c.unknownDirective⟩

namespace Command

/-- Why a command fails. -/
inductive Failure where
  | config (error : ConfigError)
  | fileMissing (path : String)
  | fileUnreadable (path : String)
  | inputUnreadable
  | fileUnwritable (path : String)
  | linkUnreadable
  /-- The circuit of the given name has errors. -/
  | circuitErrors (name : String) (count : Nat)
deriving DecidableEq

def Failure.message : Failure → String
  | config error => error.message
  | fileMissing path => s!"File not found: {path}"
  | fileUnreadable path => s!"Failed to read file: {path}"
  | inputUnreadable => "Failed to read stdin"
  | fileUnwritable path => s!"Failed to write file: {path}"
  | linkUnreadable => "Failed to decode circuit URL"
  | circuitErrors name count => s!"{name}: {count} error(s)"

def programName : String := "shatter"

def programVersion : String := "0.3.0"

/-- A text to be worked on, and the name it goes by. -/
structure Source where
  name : String
  text : String

/-- A line for a diagnostic of the named circuit. -/
def diagnosticLine (name : String) (d : Diagnostic) : String :=
  s!"{name}:{d.line}: {d.severity.text}[{d.problem.code}]: {d.problem.message}\n"

/-- The line that a successful check ends with. -/
def checkLine (name : String) (p : Parsed) : String :=
  let c := p.circuit
  let warnings := if p.diagnostics.isEmpty then ""
    else s!", {p.diagnostics.length} warning(s)"
  s!"✓ {name}: {c.layers.length} layers, {c.coords.size} qubits, {c.measurements} measurements" ++
    warnings ++ "\n"

/-- The text of a circuit as it is asked for. -/
def formatted (annotated pragmas : Bool) (c : Circuit) : String :=
  let text := if annotated then c.annotatedText else c.stimText
  if pragmas then String.ofList (Source.restorePragmas text.toList) else text

def versionLines : List String := [
  s!"Shatter v{programVersion} - Stim circuits with layout overlays",
  "",
  s!"Gate table:  {Gate.standard.length} Stim gates",
  "Directives:  ##! " ++ String.intercalate ", " Directive.commands,
  s!"Qubit ids:   0..={maxQubitId}"]

def usageLines : List String := [
  s!"Usage: {programName} [-v] [--config FILE] COMMAND",
  "",
  "Commands:",
  "  check [INPUT]",
  "  fmt [-o OUTPUT] [--pragma] [--annotated] [INPUT]",
  "  normalize [-o OUTPUT] [INPUT]",
  "  inspect [-f text|json|yaml] [INPUT]",
  "  url [-b BASE] [-d] [INPUT]",
  "  version"]

def unlines (lines : List String) : String := String.join (lines.map (· ++ "\n"))

/-- The text of octets, if they are text. -/
def decodeText? (octets : List UInt8) : Option String :=
  (Text.Utf8.decode octets).toOption.map String.ofList

/-- The path of the user's own configuration file. -/
def userConfigPath (home : String) : String :=
  (if home.endsWith "/" then home else home ++ "/") ++ ".shatter/config.yaml"

variable {m : Type → Type} [Monad m]

/-- A step that can fail, on a host. -/
abbrev Attempt (m : Type → Type) := ExceptT Failure m

namespace Host

/-- The text of a file. -/
def readText (h : Host m) (path : String) : ExceptT FileFault m String := do
  match decodeText? (← ExceptT.mk (h.read path)) with
  | none => throw .notText
  | some text => pure text

/-- The text of a configuration file. -/
def readConfig (h : Host m) (path : String) : Attempt m String :=
  (h.readText path).adapt fun fault => .config (.unreadable path fault)

/-- The text of the user's own configuration file, if there is one. -/
def readUserConfig (h : Host m) : Attempt m (Option String) := do
  match ← h.home? with
  | none => pure none
  | some home =>
      match ← (h.readText (userConfigPath home)).run with
      | .ok text => pure (some text)
      | .error .notText => throw (.config (.unreadable (userConfigPath home) .notText))
      | .error _ => pure none

/-- The configuration: that of a file, which is the user's own unless another one is asked for, with the
overrides of the environment. -/
def loadConfig (h : Host m) (path : Option String) : Attempt m Config := do
  let file ← match path with
    | some path => some <$> h.readConfig path
    | none => h.readUserConfig
  let values ← Config.variableNames.mapM fun name => do pure (name, ← h.lookup name)
  liftExcept ((Config.ofSources file fun name => (values.lookup name).join).mapError Failure.config)

/-- The circuit text to work on. -/
def readSource (h : Host m) (input : Option String) : Attempt m Source := do
  match input.filter (· ≠ "-") with
  | none =>
      match decodeText? (← h.readInput) with
      | none => throw .inputUnreadable
      | some text => pure ⟨"<stdin>", text⟩
  | some path =>
      if ← h.exists? path then
        (h.readText path).adapt (fun _ => .fileUnreadable path) >>= fun text => pure ⟨path, text⟩
      else throw (.fileMissing path)

/-- Prints a text with a line end, or makes it the text of a file, to which a line end is added only if
it has none. -/
def writeResult (h : Host m) (output : Option String) (text : String) : Attempt m Unit := do
  match output with
  | none => h.print (text ++ "\n")
  | some path =>
      let contents := if text.endsWith "\n" then text else text ++ "\n"
      unless ← h.write path contents do throw (.fileUnwritable path)

/-- Parses a circuit and prints its diagnostics. -/
def parseSource (h : Host m) (c : Config) (s : Source) : Attempt m Parsed := do
  let p := parseWith c.context s.text
  h.printError (String.join (p.diagnostics.map (diagnosticLine s.name)))
  pure p

end Host

/-- Fails if a circuit has errors. -/
def ensureNoErrors (name : String) (p : Parsed) : Attempt m Unit := do
  let count := p.diagnostics.countP Diagnostic.isError
  unless count = 0 do throw (.circuitErrors name count)

/-- Carries out a task. -/
def Task.run (h : Host m) (c : Config) : Task → Attempt m Unit
  | .check input => do
      let s ← h.readSource input
      let p ← h.parseSource c s
      ensureNoErrors s.name p
      h.print (checkLine s.name p)
  | .format input output pragmas annotated => do
      let s ← h.readSource input
      let p ← h.parseSource c s
      ensureNoErrors s.name p
      h.writeResult output (formatted annotated (pragmas || c.pragmas) p.circuit)
  | .normalize input output => do
      let s ← h.readSource input
      let p ← h.parseSource c s
      h.writeResult output p.text
      ensureNoErrors s.name p
  | .inspect input chosen => do
      let s ← h.readSource input
      h.print (Report.text (chosen.getD c.reportFormat) s.name (parseWith c.context s.text))
  | .share input base => do
      let s ← h.readSource input
      let text := Text.trimEnd s.text.toList
      let link := match base.or c.urlBase with
        | some base => ShareLink.url base.toList text
        | none => ShareLink.fragment text
      h.print (String.ofList link ++ "\n")
  | .receive input => do
      let s ← h.readSource input
      match ShareLink.decode (Text.trim s.text.toList) with
      | .error _ => throw .linkUnreadable
      | .ok text =>
          let p ← h.parseSource c { s with text }
          h.print (p.text ++ "\n")
          ensureNoErrors s.name p
  | .version => h.print (unlines versionLines)

/-- Carries out an invocation. -/
def Invocation.run (h : Host m) (i : Invocation) : Attempt m Unit := do
  let c ← h.loadConfig i.config
  i.task.run h c

/-- Runs the program with the given arguments; the result is its exit code: 0, or 1 for a failure, or 2
for arguments that do not fit. -/
def run (h : Host m) (args : List String) : m UInt8 := do
  match Invocation.read (← h.lookup configVariable) args with
  | .error .version => do
      h.print s!"{programName} {programVersion}\n"
      pure 0
  | .error .help => do
      h.print (unlines usageLines)
      pure 0
  | .error .usage => do
      h.printError (unlines usageLines)
      pure 2
  | .ok i => do
      match ← (i.run h).run with
      | .ok () => pure 0
      | .error failure => do
          h.printError s!"Error: {failure.message}\n"
          pure 1

end Command

end StimOverlay
