/-!
# Options

What a transformation can be told: the class that stands for the body element, whether to say in
comments which client the nodes behind them are for, and the name of the at-rule to expand. An
empty class or name is no choice and leaves the option as it is.
-/

namespace MailCss

/-- The options of a transformation. -/
structure Options where
  bodyClass : String := "body"
  comment : Bool := false
  atRuleName : String := "client"
  deriving DecidableEq, Repr, Inhabited

/-- Options that may each be left out. -/
structure Choices where
  bodyClass : Option String := none
  comment : Option Bool := none
  atRuleName : Option String := none
  deriving DecidableEq, Repr, Inhabited

namespace Options

/-- The class that stands for the body element. -/
def withBodyClass (o : Options) (s : String) : Options :=
  if s = "" then o else { o with bodyClass := s }

/-- Whether to write comments. -/
def withComment (o : Options) (b : Bool) : Options := { o with comment := b }

/-- The name of the at-rule to expand. -/
def withAtRuleName (o : Options) (s : String) : Options :=
  if s = "" then o else { o with atRuleName := s }

/-- The options with what is chosen. -/
def ofChoices (c : Choices) : Options :=
  let o : Options := {}
  let o := c.comment.elim o o.withComment
  let o := c.bodyClass.elim o o.withBodyClass
  c.atRuleName.elim o o.withAtRuleName

end Options

end MailCss
