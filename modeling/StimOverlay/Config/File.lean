import StimOverlay.Config.Basic
import StimOverlay.Yaml.Plain
import StimOverlay.Yaml.Read

/-! Configuration files. A file is a mapping of sections, and a section a mapping of settings; what is
not set has its default, and what is not known is passed over. -/

namespace StimOverlay.Config

open Yaml

/-- The node under a key. A key that occurs twice makes the file malformed. -/
def setting? (fields : List (String × Node)) (key : String) : Option (Option Node) :=
  match fields.filter (·.1 == key) with
  | [] => some none
  | [field] => some (some field.2)
  | _ => none

/-- Reads the setting under a key, which may be missing. -/
def read? (fields : List (String × Node)) (key : String) (fallback : α)
    (value? : Node → Option α) : Option α := do
  match ← setting? fields key with
  | none => some fallback
  | some node => value? node

/-- The settings of a section, which may be missing. -/
def section? (fields : List (String × Node)) (key : String) : Option (List (String × Node)) :=
  read? fields key [] Node.fields?

/-- Only words without quotes are truth values. -/
def readFlag? (n : Node) : Option Bool := n.plain?.bind truth?

def readSeverity? (n : Node) : Option Severity := do
  let word ← n.text?
  [Severity.error, .warning].find? (·.text == word)

def readReportFormat? (n : Node) : Option ReportFormat := n.text?.bind ReportFormat.ofWord?

/-- A text that may be missing: the words for nothing stand for a missing one, unless they
are quoted. -/
def readOptionalText? (n : Node) : Option (Option String) := do
  let text ← n.text?
  if n.plain?.any fun word => word.isEmpty || nullWords.contains word then some none
  else some (some text)

def Draft.ofNode? (document : Node) : Option Draft := do
  let sections ← document.fields?
  let logging ← section? sections "logging"
  let parser ← section? sections "parser"
  let output ← section? sections "output"
  let base : Draft := {}
  some {
    logLevel := ← read? logging "level" base.logLevel Node.text?
    logFormat := ← read? logging "format" base.logFormat Node.text?
    unknownDirective := ← read? parser "unknown_annotation" base.unknownDirective readSeverity?
    pragmas := ← read? output "pragmas" base.pragmas readFlag?
    reportFormat := ← read? output "format" base.reportFormat readReportFormat?
    urlBase := ← read? output "url_base" base.urlBase readOptionalText? }

/-- The draft in the text of a file, whose values have to pass the check. -/
def Draft.ofFile (text : String) : Except ConfigError Draft :=
  match (Yaml.read? text.toList).bind Draft.ofNode? with
  | none => .error .malformed
  | some draft => draft.check.map fun _ => draft

end StimOverlay.Config
