import MailCss.Selector.Edit
import MailCss.Selector.List

/-!
# Adapting selector texts

Two ways to make a selector list apply in one place only: below an ancestor, or with the body
element replaced by something that only that place has. Both work on each selector of the list and
fail as a whole if the list, or what it is combined with, is no selector list.
-/

namespace MailCss

/-- Why a selector text was not adapted. -/
inductive AdaptError where
  /-- The text is no selector list, for a cause found at a line and column. -/
  | invalid (selector cause : String) (line column : Nat)
  /-- The adapted selector cannot be written. -/
  | unprintable (selector cause : String)
  deriving DecidableEq, Repr, Inhabited

namespace AdaptError

/-- The selector text that an error is about. -/
def selector : AdaptError → String
  | .invalid s .. | .unprintable s _ => s

/-- The wording of an error. -/
def message : AdaptError → String
  | .invalid s cause line column =>
    "invalid selector '" ++ s ++ "' at " ++ toString line ++ ":" ++ toString column ++ ": " ++ cause
  | .unprintable s cause => "failed to print selector '" ++ s ++ "': " ++ cause

/-- The error for a text that is no selector list. -/
def ofSelectorError (selector : String) (e : SelectorError) : AdaptError :=
  .invalid selector e.cause.text e.line e.column

end AdaptError

namespace Adapt

/-- The selector list that a text holds. -/
def parse (source : String) : Except AdaptError SelectorList :=
  (SelectorList.parse source).mapError (AdaptError.ofSelectorError source)

/-- Reads `selector` and then `other`, and writes what `edit` makes of each chain of the former
and the first chain of the latter. -/
def withFirstChain (edit : Chain → Chain → Chain) (other selector : String) :
    Except AdaptError String := do
  let list ← parse selector
  let front ← parse other
  return (SelectorList.ofChains (list.chains.map (edit front.firstChain))).print

/-- The selector list with the first selector of `wrapper` as an ancestor of every selector. -/
def addWrapper (wrapper selector : String) : Except AdaptError String :=
  withFirstChain Chain.prepend wrapper selector

/-- The selector list with the first selector of `replacement` in the place of every selector's
anchor, or in front of a selector without one. -/
def retargetBody (bodyClass replacement selector : String) : Except AdaptError String :=
  withFirstChain (Chain.retarget bodyClass) replacement selector

end Adapt

end MailCss
