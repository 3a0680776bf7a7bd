import MailCss.Css.Token

/-!
# Parts of selectors

Simple selectors and combinators. A selector holds them in one list: compounds, which are runs of
simple selectors, with combinators between them. Pseudo-elements stand in a compound of their own
behind a combinator that is not written.

Selectors inside a component, such as the argument of `:is()`, are lists of components in match
order, as in `MailCss.Selector`.
-/

namespace MailCss

open Css (Token)

/-- A combinator. The last three join a pseudo-element to its compound and are not written. -/
inductive Combinator where
  | child
  | descendant
  | nextSibling
  | laterSibling
  | toPseudoElement
  | toSlotted
  | toPart
  deriving DecidableEq, Repr, Inhabited

/-- The namespace in front of a name: any one, none, or the one with a label. -/
inductive Namespace where
  | any
  | empty
  | named (label : String)
  deriving DecidableEq, Repr, Inhabited

/-- How an attribute is compared with a value. -/
inductive Comparison where
  | equal
  | includes
  | dash
  | start
  | finish
  | substring
  deriving DecidableEq, Repr, Inhabited

/-- The case flag behind an attribute's value. -/
inductive CaseFlag where
  | insensitive
  | sensitive
  deriving DecidableEq, Repr, Inhabited

/-- What an attribute's value must be. -/
structure AttributeTest where
  comparison : Comparison
  value : String
  flag : Option CaseFlag
  deriving DecidableEq, Repr, Inhabited

/-- An attribute selector. -/
structure Attribute where
  qualifier : Option Namespace
  name : String
  test : Option AttributeTest
  deriving DecidableEq, Repr, Inhabited

/-- The formula `a n + b`. -/
structure AnPlusB where
  a : Int
  b : Int
  deriving DecidableEq, Repr, Inhabited

/-- What the pseudo-classes with a formula count. -/
inductive Counted where
  | child
  | lastChild
  | ofType
  | lastOfType
  | col
  | lastCol
  | onlyChild
  | onlyOfType
  deriving DecidableEq, Repr, Inhabited

/-- The pseudo-classes that take a list of selectors and nothing else. -/
inductive Matching where
  | is
  | where
  | not
  | has
  | webkitAny
  | mozAny
  deriving DecidableEq, Repr, Inhabited

/-- The name of a view transition, or a star for any. -/
inductive TransitionName where
  | all
  | named (name : String)
  deriving DecidableEq, Repr, Inhabited

/-- The arguments of a pseudo-class or pseudo-element that holds no selectors. -/
inductive Arguments where
  /-- No brackets at all. -/
  | none
  /-- Names between commas. -/
  | names (ns : List String)
  /-- Names between spaces. -/
  | words (ns : List String)
  /-- A view transition and its classes. -/
  | transition (name : Option TransitionName) (classes : List String)
  /-- Any tokens. -/
  | tokens (ts : List Token)
  deriving DecidableEq, Repr, Inhabited

/-- A simple selector or a combinator. -/
inductive Component where
  | combinator (c : Combinator)
  /-- The namespace of the type or universal selector behind it. -/
  | qualifier (n : Namespace)
  | universal
  | tag (name : String)
  | id (name : String)
  | className (name : String)
  | attribute (a : Attribute)
  | nesting
  | scope
  | pseudoClass (name : String) (args : Arguments)
  | pseudoElement (name : String) (args : Arguments)
  | matching (m : Matching) (list : List (List Component))
  | nth (c : Counted) (f : AnPlusB)
  | nthOf (c : Counted) (f : AnPlusB) (list : List (List Component))
  | host (inner : List Component)
  | slotted (inner : List Component)
  /-- `::cue()` or `::cue-region()`. -/
  | cue (region : Bool) (inner : List Component)
  deriving Repr, Inhabited

/-- A selector's components in the order in which they are written. -/
abbrev Chain := List Component

namespace Component

/-- The combinator that a component is, if it is one. -/
def combinator? : Component → Option Combinator
  | .combinator c => some c
  | _ => none

/-- Whether a component is a combinator. -/
def isCombinator (c : Component) : Bool := c.combinator?.isSome

/-- Whether a component is a namespace. -/
def isQualifier : Component → Bool
  | .qualifier _ => true
  | _ => false

/-- Whether a component is a type selector or the universal selector. -/
def isType : Component → Bool
  | .tag _ | .universal => true
  | _ => false

/-- Whether a component is the universal selector. -/
def isUniversal : Component → Bool
  | .universal => true
  | _ => false

/-- Whether a component is the nesting selector. -/
def isNesting : Component → Bool
  | .nesting => true
  | _ => false

/-- Whether a component is the scope selector. -/
def isScope : Component → Bool
  | .scope => true
  | _ => false

/-- Whether a component is the type selector of the body element. -/
def isBodyTag : Component → Bool
  | .tag name => name == "body"
  | _ => false

/-- Whether a component is the class that stands for the body element. -/
def isBodyClass (bodyClass : String) : Component → Bool
  | .className name => name == bodyClass
  | _ => false

/-- Whether a component is the body element or the class that stands for it. -/
def isAnchor (bodyClass : String) (c : Component) : Bool := c.isBodyTag || c.isBodyClass bodyClass

end Component

end MailCss
