import MailCss.Selector.Adapt
import MailCss.Stylesheet.Basic
import MailCss.Stylesheet.Parser

/-!
# Findings and their diagnostics

Nothing that is wrong with a style sheet stops its transformation. What is found on the way is
kept as a list of findings; each makes one diagnostic, and a selector that was left as it is makes
an event of the log as well.
-/

namespace MailCss

open Text (Location)

/-- How serious a diagnostic is. -/
inductive Severity where
  | warning
  | information
  deriving DecidableEq, Repr, Inhabited

/-- A place in the style sheet that a diagnostic points to. -/
structure Label where
  text : Option String
  location : Location
  deriving DecidableEq, Repr, Inhabited

/-- A message about the style sheet. -/
structure Diagnostic where
  severity : Severity
  text : String
  /-- What to do about it; may be empty. -/
  hint : String
  labels : List Label
  deriving DecidableEq, Repr, Inhabited

/-- An event of the log. -/
structure Event where
  message : String
  location : Location
  deriving DecidableEq, Repr, Inhabited

namespace Diagnostic

/-- A rule kept its selector because adapting it failed. -/
def ofAdaptError (e : AdaptError) (location : Location) : Diagnostic :=
  { severity := .warning
    text := e.message
    hint :=
      match e with
      | .invalid .. => "the rule was emitted without the client-specific selector"
      | .unprintable .. => ""
    labels := [⟨some e.selector, location⟩] }

/-- A client name that has no conversion. -/
def unsupportedClient (client : String) (location : Location) : Diagnostic :=
  { severity := .information
    text := "unsupported client '" ++ client ++ "'"
    hint := "the rules were emitted unconverted"
    labels := [⟨some client, location⟩] }

/-- An at-rule that names no client. -/
def emptyClientList (atRuleName : String) (location : Location) : Diagnostic :=
  { severity := .warning
    text := "@" ++ atRuleName ++ " lists no clients"
    hint := "add one or more comma-separated client names after @" ++ atRuleName
    labels := [⟨none, location⟩] }

end Diagnostic

/-- Something found while client at-rules are expanded. -/
inductive Finding where
  | notAdapted (e : AdaptError) (location : Location)
  | unsupportedClient (client : String) (location : Location)
  | emptyClientList (atRuleName : String) (location : Location)
  deriving DecidableEq, Repr, Inhabited

namespace Finding

/-- The diagnostic of a finding. -/
def diagnostic : Finding → Diagnostic
  | .notAdapted e l => .ofAdaptError e l
  | .unsupportedClient c l => .unsupportedClient c l
  | .emptyClientList n l => .emptyClientList n l

/-- The location that a finding is about. -/
def location : Finding → Location
  | .notAdapted _ l | .unsupportedClient _ l | .emptyClientList _ l => l

/-- A diagnostic has one label, which points to the location of the finding. -/
theorem map_location_labels (f : Finding) :
    f.diagnostic.labels.map Label.location = [f.location] := by
  cases f <;> rfl

/-- The log event of a finding, if it makes one. -/
def event? : Finding → Option Event
  | .notAdapted e l => some ⟨"leaving selector unchanged: " ++ e.message, l⟩
  | .unsupportedClient .. | .emptyClientList .. => none

end Finding

/-- The log event for text that was skipped. -/
def Skipped.event (s : Skipped) : Event := ⟨"skipping unrecognized CSS: " ++ s.text, s.location⟩

end MailCss
