import MailCss.Css.Written
import MailCss.Selector.Formula
import MailCss.Selector.Names
import MailCss.Selector.Order

/-!
# Writing selectors

A selector is written compound by compound in written order, with the next combinator behind each
compound. An empty compound is passed over and takes no combinator with it. The universal selector
is left out where something else stands for the compound: it is written only behind a namespace
or where it is all there is.

Writing a component, including the lists inside it, goes along the component's structure;
`Printed.selector` then puts the written components of one selector together.
-/

namespace MailCss

open Css

/-- A component, and how it is written. -/
structure Printed where
  component : Component
  text : List Char

/-- Texts with a separator between them. -/
def joinTexts (sep : List Char) : List (List Char) → List Char
  | [] => []
  | [t] => t
  | t :: ts => t ++ sep ++ joinTexts sep ts

/-- A combinator. -/
def Combinator.text : Combinator → List Char
  | .child => " > ".toList
  | .descendant => [' ']
  | .nextSibling => " + ".toList
  | .laterSibling => " ~ ".toList
  | .toPseudoElement | .toSlotted | .toPart => []

namespace Printed

/-- The texts of components. -/
def texts (ps : List Printed) : List Char := ps.flatMap Printed.text

/-- The components behind a namespace, and whether there is one; a nesting selector in front of it
is passed over if `leading`. -/
def behindNamespace (leading : Bool) (compound : List Printed) : Bool × List Printed :=
  let front := if leading && compound.head?.any (·.component.isNesting) then 1 else 0
  let behind := compound.drop front
  if behind.head?.any (·.component.isQualifier) then (true, behind.drop 1) else (false, behind)

/-- Whether a combinator leaves what precedes it to stand for a compound of its own. -/
def keepsAlone : Option Combinator → Bool
  | some .toPseudoElement | some .toSlotted => false
  | _ => true

/-- A compound in front of `next`. The universal selector is left out unless it is behind a
namespace or all that there is. -/
def compound (leading : Bool) (next : Option Combinator) (c : List Printed) : List Char :=
  let (qualified, behind) := behindNamespace leading c
  let alone :=
    match behind with
    | [p] => p.component.isUniversal
    | _ => false
  if qualified || (alone && keepsAlone next) then texts c
  else texts (c.filter fun p => !p.component.isUniversal)

/-- Compounds with combinators behind them. `leading` says that no compound has been written yet,
and `relative` that a scope selector in front is left out, though not the combinator after it. -/
def compounds (leading relative : Bool) : List (List Printed) → List Combinator → List Char
  | [], _ => []
  | c :: cs, ks =>
    let atScope := relative && c.head?.any (·.component.isScope)
    let front := if atScope then ks.head?.elim [] Combinator.text else []
    let ks := if atScope then ks.drop 1 else ks
    let c := if atScope then c.drop 1 else c
    let relative := relative && !atScope
    if c.isEmpty then front ++ compounds leading relative cs ks
    else
      front ++ compound leading ks.head? c ++ ks.head?.elim [] Combinator.text ++
        compounds false relative cs (ks.drop 1)

/-- A selector, from its components in match order. -/
def selector (relative : Bool) (ps : List Printed) : List Char :=
  compounds true relative (compoundsBy Printed.component ps) (combinatorsBy Printed.component ps)

/-- A list of selectors. -/
def list (relative : Bool) (ss : List (List Printed)) : List Char :=
  joinTexts ", ".toList (ss.map (selector relative))

/-- Whether the argument of `:is()` stands for the whole: one compound that does not begin with a
type selector. -/
def standsAlone (ss : List (List Printed)) : Bool :=
  match ss with
  | [s] => !s.any (·.component.isCombinator) &&
      !(behindNamespace false s).2.head?.any (·.component.isType)
  | _ => false

end Printed

/-! ## Components without selectors inside -/

/-- A name as an identifier. -/
def identText (s : String) : List Char := Written.ident s.toList

/-- A text in brackets. -/
def inBrackets (s : List Char) : List Char := '(' :: s ++ [')']

/-- The bar behind a namespace, with the namespace. -/
def Namespace.text : Namespace → List Char
  | .any => ['*', '|']
  | .empty => ['|']
  | .named label => identText label ++ ['|']

/-- A comparison. -/
def Comparison.text : Comparison → List Char
  | .equal => ['=']
  | .includes => ['~', '=']
  | .dash => ['|', '=']
  | .start => ['^', '=']
  | .finish => ['$', '=']
  | .substring => ['*', '=']

/-- A case flag. -/
def CaseFlag.text : CaseFlag → List Char
  | .insensitive => [' ', 'i']
  | .sensitive => [' ', 's']

/-- What an attribute's value must be. -/
def AttributeTest.text (t : AttributeTest) : List Char :=
  t.comparison.text ++ Written.string t.value.toList ++ t.flag.elim [] CaseFlag.text

/-- An attribute selector. -/
def Attribute.text (a : Attribute) : List Char :=
  '[' :: (a.qualifier.elim [] Namespace.text ++ identText a.name ++
    a.test.elim [] AttributeTest.text) ++ [']']

/-- The name of a view transition. -/
def TransitionName.text : TransitionName → List Char
  | .all => ['*']
  | .named name => identText name

/-- Arguments in their brackets. -/
def Arguments.text : Arguments → List Char
  | .none => []
  | .names ns => inBrackets (joinTexts ", ".toList (ns.map identText))
  | .words ns => inBrackets (joinTexts [' '] (ns.map identText))
  | .transition name classes =>
    inBrackets (name.elim [] TransitionName.text ++ classes.flatMap fun c => '.' :: identText c)
  | .tokens ts => inBrackets (ts.flatMap Written.token)

/-- The colons in front of a pseudo-element. -/
def elementColons (name : String) (args : Arguments) : List Char :=
  if args = .none ∧ name ∈ Names.oneColon then [':'] else [':', ':']

/-- The name of a pseudo-class with a formula. -/
def Counted.formulaName : Counted → String
  | .child => "nth-child"
  | .lastChild => "nth-last-child"
  | .ofType => "nth-of-type"
  | .lastOfType => "nth-last-of-type"
  | .col => "nth-col"
  | .lastCol => "nth-last-col"
  | .onlyChild => "only-child"
  | .onlyOfType => "only-of-type"

/-- The formula `0n+1`, as a pseudo-class of its own. Columns have none: of theirs nothing but the
beginning is written. -/
def Counted.first : Counted → String
  | .child => "first-child"
  | .lastChild => "last-child"
  | .ofType => "first-of-type"
  | .lastOfType => "last-of-type"
  | .col => "nth-col("
  | .lastCol => "nth-last-col("
  | .onlyChild => "only-child"
  | .onlyOfType => "only-of-type"

/-- A pseudo-class with a formula. -/
def nthText (c : Counted) (f : AnPlusB) : List Char :=
  if f = ⟨0, 1⟩ then ':' :: c.first.toList else ':' :: c.formulaName.toList ++ inBrackets f.text

/-- A pseudo-class that takes a list, with that list. -/
def Matching.text (m : Matching) (ss : List (List Printed)) : List Char :=
  match m with
  | .is =>
    if Printed.standsAlone ss then Printed.list false ss
    else ":is".toList ++ inBrackets (Printed.list false ss)
  | .where => ":where".toList ++ inBrackets (Printed.list false ss)
  | .not => ":not".toList ++ inBrackets (Printed.list false ss)
  | .has => ":has".toList ++ inBrackets (Printed.list true ss)
  | .webkitAny => ":-webkit-any".toList ++ inBrackets (Printed.list false ss)
  | .mozAny => ":-moz-any".toList ++ inBrackets (Printed.list false ss)

/-! ## Components -/

mutual

/-- A component. -/
def Component.text : Component → List Char
  | .combinator c => c.text
  | .qualifier n => n.text
  | .universal => ['*']
  | .tag name => identText name
  | .id name => '#' :: identText name
  | .className name => '.' :: identText name
  | .attribute a => a.text
  | .nesting => ['&']
  | .scope => ":scope".toList
  | .pseudoClass name args => ':' :: name.toList ++ args.text
  | .pseudoElement name args => elementColons name args ++ name.toList ++ args.text
  | .matching m list => m.text (printedLists list)
  | .nth c f => nthText c f
  | .nthOf c f list =>
    ':' :: c.formulaName.toList ++
      inBrackets (f.text ++ " of ".toList ++ Printed.list true (printedLists list))
  | .host inner => ":host".toList ++ inBrackets (Printed.selector false (printedAll inner))
  | .slotted inner => "::slotted".toList ++ inBrackets (Printed.selector false (printedAll inner))
  | .cue region inner =>
    (if region then "::cue-region" else "::cue").toList ++
      inBrackets (Printed.selector false (printedAll inner))

/-- Components with their texts. -/
def printedAll : List Component → List Printed
  | [] => []
  | c :: cs => ⟨c, c.text⟩ :: printedAll cs

/-- Lists of components with their texts. -/
def printedLists : List (List Component) → List (List Printed)
  | [] => []
  | s :: ss => printedAll s :: printedLists ss

end

end MailCss
