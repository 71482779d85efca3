import StimOverlay.Config.File
import StimOverlay.Text.Case

/-! Overrides from the environment. Every setting has a variable; one that is set replaces what the
configuration file says. -/

namespace StimOverlay.Config

/-- The variables that are looked at. -/
def variableNames : List String := [
  "SHATTER_LOG_LEVEL",
  "SHATTER_LOG_FORMAT",
  "SHATTER_UNKNOWN_ANNOTATION",
  "SHATTER_PRAGMAS",
  "SHATTER_OUTPUT_FORMAT",
  "SHATTER_URL_BASE"]

/-- Words are compared in small letters. -/
def lowered (s : String) : String := String.ofList (Text.lower s.toList)

/-- The severity that a word stands for. -/
def severityOfWord (value : String) : Except ConfigError Severity :=
  let word := lowered value
  if word = "error" then .ok .error
  else if word = "warning" ∨ word = "warn" then .ok .warning
  else .error (.severityUnknown word)

/-- Whether a word is affirmative; any other word is negative. -/
def isAffirmative (value : String) : Bool := ["1", "true", "yes", "on"].contains (lowered value)

/-- The format that a word stands for. -/
def reportFormatOfWord (value : String) : Except ConfigError ReportFormat :=
  match ReportFormat.ofWord? (String.ofList (value.toList.map Char.toLower)) with
  | some format => .ok format
  | none => .error (.reportFormatUnknown value)

/-- The draft with the overrides of an environment. An empty base URL counts as none. -/
def Draft.override (d : Draft) (lookup : String → Option String) : Except ConfigError Draft := do
  let unknownDirective ← match lookup "SHATTER_UNKNOWN_ANNOTATION" with
    | none => .ok d.unknownDirective
    | some value => severityOfWord value
  let reportFormat ← match lookup "SHATTER_OUTPUT_FORMAT" with
    | none => .ok d.reportFormat
    | some value => reportFormatOfWord value
  .ok {
    logLevel := (lookup "SHATTER_LOG_LEVEL").getD d.logLevel
    logFormat := (lookup "SHATTER_LOG_FORMAT").getD d.logFormat
    unknownDirective
    pragmas := ((lookup "SHATTER_PRAGMAS").map isAffirmative).getD d.pragmas
    reportFormat
    urlBase := match lookup "SHATTER_URL_BASE" with
      | none => d.urlBase
      | some value => if value.isEmpty then none else some value }

/-- The configuration that a file and an environment give; without a file all settings start from
their defaults. -/
def ofSources (file : Option String) (lookup : String → Option String) :
    Except ConfigError Config := do
  let draft ← match file with
    | none => .ok {}
    | some text => Draft.ofFile text
  let draft ← draft.override lookup
  draft.check

end StimOverlay.Config
