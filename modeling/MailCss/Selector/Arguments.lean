import MailCss.Selector.Item
import MailCss.Selector.Names

/-!
# Arguments without selectors

Reading the arguments of the pseudo-classes and pseudo-elements that hold no selectors: names of
the author's own, a writing direction, a view transition with its classes, and any tokens at all
for a function that is not known.
-/

namespace MailCss

open Css (Token TokenTree)

/-- How deep the arguments of an unknown function may be nested. -/
def greatestDepth : Nat := 500

mutual

/-- The tokens of a tree, with `after` characters behind it. -/
def argumentTokens (depth after : Nat) : TokenTree → Except Failure (List Token)
  | .leaf x =>
    if x.token.isMalformed then refuse (.unexpectedToken x.token) (x.source.length + after)
    else .ok [x.token]
  | .group x inner closer =>
    let after := closer.length + after
    if greatestDepth < depth + 1 then
      refuse .tooDeep (TokenTree.sizeAll inner + after)
    else do
      let ts ← argumentsTokens (depth + 1) after inner
      return x.token :: ts ++ x.token.closer?.toList

/-- The tokens of the arguments of an unknown function, groups inside closed. -/
def argumentsTokens (depth after : Nat) : List TokenTree → Except Failure (List Token)
  | [] => .ok []
  | t :: ts => do
    let here ← argumentTokens depth (TokenTree.sizeAll ts + after) t
    return here ++ (← argumentsTokens depth after ts)

end

/-- Reads the arguments of an unknown function. -/
def readArguments (items : List Item) : Except Failure Arguments :=
  (argumentsTokens 0 0 (items.map Item.tree)).map Arguments.tokens

/-- Reads a name of the author's own. -/
def readCustomIdent (items : List Item) : Except Failure (String × List Item) := do
  let (name, r) ← readIdent items
  if Names.isCustom name then return (name, r)
  else refuse (.unexpectedToken (.ident name)) (left items)

/-- Reads a writing direction. -/
def readDirection (items : List Item) : Except Failure (String × List Item) := do
  let (name, r) ← readIdent items
  let l := Names.lower name
  if l = "ltr" ∨ l = "rtl" then return (l, r)
  else refuse (.unexpectedToken (.ident name)) (left items)

/-- Reads a single name, to the end. -/
def readOne (read : List Item → Except Failure (String × List Item)) (items : List Item) :
    Except Failure Arguments := do
  return .names [← exhausted (← read items)]

/-- Reads the classes of a view transition and one token behind them, if there is one; gives the
names of the classes and how many characters are left. The point of a class follows what is before
it directly, and so does the name of the class the point. -/
def readTransitionClasses : Nat → List Item → Except Failure (List String × Nat)
  | 0, items => .ok ([], left items)
  | fuel + 1, items =>
    match dropComments items with
    | [] => .ok ([], 0)
    | t :: r =>
      if t.token = .delim '.' then
        match dropComments r with
        | [] => refuse .invalidState 0
        | u :: r' =>
          match u.token with
          | .ident name =>
            (readTransitionClasses fuel r').map fun (names, n) => (name :: names, n)
          | _ => refuse .invalidState (leftAfter u r')
      else if (dropSkipped r).isEmpty then .ok ([], leftAfter t r)
      else refuse .invalidState (leftAfter t r)

/-- Reads the name of a view transition, if there is one. -/
def readTransitionName (items : List Item) : Option TransitionName × List Item :=
  match dropSkipped items with
  | [] => (none, [])
  | t :: r =>
    match t.token with
    | .delim '*' => (some .all, r)
    | .ident name => if Names.isCustom name then (some (.named name), r) else (none, t :: r)
    | _ => (none, t :: r)

/-- Reads the argument of a pseudo-element of a view transition. -/
def readTransition (items : List Item) : Except Failure Arguments := do
  let (name, r) := readTransitionName items
  let (classes, n) ← readTransitionClasses (r.length + 1) r
  if name = none ∧ classes = [] then refuse .invalidState n else return .transition name classes

end MailCss
