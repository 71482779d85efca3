import StimOverlay.Diagnostic

/-! The configuration of the command line. A draft holds what a file or the environment says, word for
word where any text may stand; checking a draft gives the configuration. -/

namespace StimOverlay

inductive LogLevel where
  | trace
  | debug
  | info
  | warn
  | error
deriving DecidableEq

def LogLevel.all : List LogLevel := [trace, debug, info, warn, error]

def LogLevel.text : LogLevel → String
  | trace => "trace"
  | debug => "debug"
  | info => "info"
  | warn => "warn"
  | error => "error"

inductive LogFormat where
  | console
  | json
deriving DecidableEq

def LogFormat.all : List LogFormat := [console, json]

def LogFormat.text : LogFormat → String
  | console => "console"
  | json => "json"

/-- The format in which a circuit is reported on. -/
inductive ReportFormat where
  | text
  | json
  | yaml
deriving DecidableEq

def ReportFormat.all : List ReportFormat := [text, json, yaml]

def ReportFormat.word : ReportFormat → String
  | text => "text"
  | json => "json"
  | yaml => "yaml"

/-- The format of the given name, in exactly this spelling. -/
def ReportFormat.ofWord? (s : String) : Option ReportFormat := all.find? (·.word == s)

structure Config where
  logLevel : LogLevel
  logFormat : LogFormat
  unknownDirective : Severity
  pragmas : Bool
  reportFormat : ReportFormat
  urlBase : Option String
deriving DecidableEq

/-- Why a file cannot be read. -/
inductive FileFault where
  | missing
  | directory
  | notInDirectory
  | notText
deriving DecidableEq

def FileFault.message : FileFault → String
  | missing => "No such file or directory (os error 2)"
  | directory => "Is a directory (os error 21)"
  | notInDirectory => "Not a directory (os error 20)"
  | notText => "stream did not contain valid UTF-8"

inductive ConfigError where
  | unreadable (path : String) (fault : FileFault)
  /-- The file is no configuration. -/
  | malformed
  | logLevelUnknown (value : String)
  | logFormatUnknown (value : String)
  | severityUnknown (value : String)
  | reportFormatUnknown (value : String)
  | urlBaseBlank
deriving DecidableEq

namespace ConfigError

def message : ConfigError → String
  | unreadable path fault => s!"IO error: {path}: {fault.message}"
  | malformed => "Parse error"
  | logLevelUnknown value => s!"Validation error: Invalid log level: {value}"
  | logFormatUnknown value => s!"Validation error: Invalid log format: {value}"
  | severityUnknown value => s!"Validation error: Invalid unknown_annotation severity: {value}"
  | reportFormatUnknown value => s!"Validation error: Invalid output format: {value}"
  | urlBaseBlank =>
      "Validation error: url_base must not be empty; omit the field to print only the hash"

end ConfigError

namespace Config

/-- A configuration whose texts have not been checked. -/
structure Draft where
  logLevel : String := LogLevel.warn.text
  logFormat : String := LogFormat.console.text
  unknownDirective : Severity := .error
  pragmas : Bool := false
  reportFormat : ReportFormat := .text
  urlBase : Option String := none
deriving DecidableEq

/-- Checks the texts of a draft, in the order of its fields. -/
def Draft.check (d : Draft) : Except ConfigError Config :=
  match LogLevel.all.find? (·.text == d.logLevel) with
  | none => .error (.logLevelUnknown d.logLevel)
  | some logLevel =>
      match LogFormat.all.find? (·.text == d.logFormat) with
      | none => .error (.logFormatUnknown d.logFormat)
      | some logFormat =>
          if d.urlBase.any fun base => base.toList.all Text.isBlank then .error .urlBaseBlank
          else .ok {
            logLevel
            logFormat
            unknownDirective := d.unknownDirective
            pragmas := d.pragmas
            reportFormat := d.reportFormat
            urlBase := d.urlBase }

end Config

end StimOverlay
