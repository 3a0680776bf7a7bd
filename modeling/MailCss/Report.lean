import MailCss.Expand

/-!
# Reports

The result of a transformation in the form in which it is handed to another program: diagnostics
have two kinds, warnings and advice, and an empty hint is no hint.
-/

namespace MailCss

/-- The kind of a reported diagnostic. -/
inductive ReportKind where
  | warning
  | advice
  deriving DecidableEq, Repr, Inhabited

/-- The word for a kind. -/
def ReportKind.word : ReportKind → String
  | .warning => "Warning"
  | .advice => "Advice"

/-- A diagnostic as it is reported. -/
structure ReportEntry where
  kind : ReportKind
  message : String
  labels : List Label
  help : Option String
  deriving DecidableEq, Repr, Inhabited

namespace ReportEntry

/-- The kind for a severity. -/
def kindOf : Severity → ReportKind
  | .warning => .warning
  | .information => .advice

/-- The entry of a diagnostic. -/
def ofDiagnostic (d : Diagnostic) : ReportEntry :=
  { kind := kindOf d.severity
    message := d.text
    labels := d.labels
    help := if d.hint = "" then none else some d.hint }

end ReportEntry

/-- The code and the diagnostics of a transformation. -/
structure Report where
  code : String
  entries : List ReportEntry
  deriving Repr, Inhabited

/-- Transforms a style sheet under the options that are chosen. -/
def report (c : Choices) (css : String) : Report :=
  let t := transform (Options.ofChoices c) css
  { code := t.code, entries := t.diagnostics.map ReportEntry.ofDiagnostic }

end MailCss
