import StimOverlay.Config.Basic
import StimOverlay.Document.Json
import StimOverlay.Document.Yaml
import StimOverlay.Report.Contents
import StimOverlay.Report.Summary

/-! Reports on a parsed circuit: a summary in words, or everything there is in a structured format. -/

namespace StimOverlay.Report

open Document

/-- The entries of a full report on the circuit of the given name. -/
def entries (name : String) (p : Parsed) : List (String × Document) :=
  [("source", .text name), ("summary", (Summary.ofParsed p).document),
    ("circuit", circuit p.circuit), ("diagnostics", .list (p.diagnostics.map diagnostic)),
    ("text", .text p.text)]

/-- The diagnostics under their counts, or the remark that there are none. -/
def diagnosticLines (s : Summary) (diagnostics : List Diagnostic) : List String :=
  if diagnostics.isEmpty then ["✓ no diagnostics"]
  else s!"Diagnostics: {s.errors} error(s), {s.warnings} warning(s)" ::
    diagnostics.map fun d => "  " ++ d.text

/-- The report in words. -/
def words (name : String) (p : Parsed) : String :=
  let s := Summary.ofParsed p
  String.join ((s.lines name ++ diagnosticLines s p.diagnostics).map (· ++ "\n"))

/-- The report in the given format, with a line end behind its last line. -/
def text (format : ReportFormat) (name : String) (p : Parsed) : String :=
  match format with
  | .text => words name p
  | .json => (Document.record (entries name p)).json ++ "\n"
  | .yaml => Document.yaml (entries name p)

end StimOverlay.Report
