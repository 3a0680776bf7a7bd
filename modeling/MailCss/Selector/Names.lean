import MailCss.Selector.Basic

/-!
# Known pseudo-classes and pseudo-elements

The names that have a meaning of their own, in lower case. A name is looked up without regard to
case and written in lower case; names that are not listed here are kept as they are.
-/

namespace MailCss.Names

/-- A name in lower case. -/
def lower (s : String) : String := String.ofList (s.toList.map Char.toLower)

/-- The pseudo-classes that count elements without a formula of their own. -/
def counting : List (String × Counted) :=
  [("first-child", .child), ("last-child", .lastChild), ("only-child", .onlyChild),
    ("first-of-type", .ofType), ("last-of-type", .lastOfType), ("only-of-type", .onlyOfType)]

/-- The pseudo-classes that take a formula. -/
def formulas : List (String × Counted) :=
  [("nth-child", .child), ("nth-last-child", .lastChild), ("nth-of-type", .ofType),
    ("nth-last-of-type", .lastOfType), ("nth-col", .col), ("nth-last-col", .lastCol)]

/-- The pseudo-classes that take a list of selectors. -/
def matching : List (String × Matching) :=
  [("is", .is), ("where", .where), ("not", .not), ("has", .has), ("-webkit-any", .webkitAny),
    ("-moz-any", .mozAny)]

/-- The pseudo-classes of the document's structure that count nothing. -/
def structural : List String := ["root", "empty", "host"]

/-- The pseudo-classes for what the user is doing, which may follow a pseudo-element. -/
def userActions : List String := ["hover", "active", "focus", "focus-visible", "focus-within"]

/-- The pseudo-classes for the parts of a scroll bar. -/
def scrollbarStates : List String :=
  ["horizontal", "vertical", "decrement", "increment", "start", "end", "double-button",
    "single-button", "no-button", "corner-present", "window-inactive"]

/-- The other pseudo-classes that may follow a pseudo-element of a scroll bar. -/
def afterScrollbar : List String := ["enabled", "disabled", "hover", "active"]

/-- The other pseudo-classes. -/
def states : List String :=
  ["current", "past", "future", "playing", "paused", "seeking", "buffering", "stalled", "muted",
    "volume-locked", "fullscreen", "-webkit-full-screen", "-moz-full-screen", "-ms-fullscreen",
    "open", "closed", "modal", "picture-in-picture", "popover-open", "defined", "any-link",
    "-webkit-any-link", "-moz-any-link", "link", "local-link", "target", "target-within",
    "visited", "enabled", "disabled", "read-only", "-moz-read-only", "read-write",
    "-moz-read-write", "placeholder-shown", "default", "checked", "indeterminate", "blank",
    "valid", "invalid", "in-range", "out-of-range", "required", "optional", "user-valid",
    "user-invalid", "autofill", "-webkit-autofill", "-o-autofill", "active-view-transition"]

/-- The pseudo-classes that are written under another name. -/
def renamedStates : List (String × String) :=
  [("-moz-placeholder", "-moz-placeholder-shown"),
    ("-ms-input-placeholder", "-ms-placeholder-shown")]

/-- The name under which a pseudo-class outside the document's structure is written. -/
def pseudoClass (name : String) : String :=
  let l := lower name
  match renamedStates.lookup l with
  | some s => s
  | none => if l ∈ userActions ++ scrollbarStates ++ states then l else name

/-- The pseudo-elements that are written with one colon. -/
def oneColon : List String := ["before", "after", "first-line", "first-letter"]

/-- The pseudo-elements of a scroll bar. -/
def scrollbarElements : List String :=
  ["-webkit-scrollbar", "-webkit-scrollbar-button", "-webkit-scrollbar-track",
    "-webkit-scrollbar-track-piece", "-webkit-scrollbar-thumb", "-webkit-scrollbar-corner",
    "-webkit-resizer"]

/-- The pseudo-elements that may follow `::slotted()`. -/
def slottable : List String :=
  ["before", "after", "marker", "placeholder", "-webkit-input-placeholder", "-moz-placeholder",
    "file-selector-button", "-webkit-file-upload-button", "-ms-browse"]

/-- The other pseudo-elements. -/
def elements : List String :=
  ["first-line", "first-letter", "details-content", "target-text", "search-text", "cue",
    "cue-region", "selection", "-moz-selection", "backdrop", "-webkit-backdrop", "picker-icon",
    "checkmark", "view-transition", "grammar-error", "spelling-error"]

/-- The name under which a pseudo-element is written, if it is known. -/
def pseudoElement? (name : String) : Option String :=
  let l := lower name
  if l = "-ms-input-placeholder" then some "-moz-placeholder"
  else if l ∈ slottable ++ elements ++ scrollbarElements then some l
  else none

/-- The pseudo-elements of a view transition. -/
def transitions : List String :=
  ["view-transition-group", "view-transition-image-pair", "view-transition-old",
    "view-transition-new"]

/-- The words that no author may use as a name of their own. -/
def reserved : List String :=
  ["initial", "inherit", "unset", "default", "revert", "revert-layer"]

/-- Whether an author may use a word as a name. -/
def isCustom (name : String) : Bool := lower name ∉ reserved

end MailCss.Names
