import MailCss.Selector.Item
import MailCss.Selector.Names

/-!
# Attribute selectors

Reading the inside of `[name]` and `[name="value" i]`, where the name may have a namespace and the
value may be an identifier or a string.
-/

namespace MailCss

open Css (Token)

namespace Attribute

/-- Whether a token is the bar between a namespace and a name. -/
def isBar (t : Item) : Bool := t.token == .delim '|'

/-- Reads the name behind a namespace and its bar. -/
def readQualified (n : Namespace) (items : List Item) :
    Except Failure ((Option Namespace × String) × List Item) :=
  match dropComments items with
  | [] => refuse .endOfInput 0
  | t :: r =>
    match t.token with
    | .ident name => .ok ((some n, name), r)
    | other => refuse (.badAttributeName other) (left items)

/-- Reads a name with its namespace, if it has one. -/
def readName (items : List Item) : Except Failure ((Option Namespace × String) × List Item) :=
  match dropComments items with
  | [] => refuse .endOfInput 0
  | t :: r =>
    match t.token with
    | .ident name =>
      match dropComments r with
      | u :: r' => if isBar u then readQualified (.named name) r' else .ok ((none, name), r)
      | [] => .ok ((none, name), r)
    | .delim '*' =>
      match dropComments r with
      | [] => refuse .endOfInput 0
      | u :: r' =>
        if isBar u then readQualified .any r' else refuse (.attributeNeedsBar u.token) (left r)
    | .delim '|' => readQualified .empty r
    | other => refuse (.attributeNeedsName other) (left items)

/-- The comparison that a token stands for. -/
def comparison? : Token → Option Comparison
  | .delim '=' => some .equal
  | .includeMatch => some .includes
  | .dashMatch => some .dash
  | .prefixMatch => some .start
  | .suffixMatch => some .finish
  | .substringMatch => some .substring
  | _ => none

/-- Reads the value. -/
def readValue (items : List Item) : Except Failure (String × List Item) :=
  match readIdentOrString items with
  | .error ⟨.unexpectedToken t, n⟩ => .error ⟨.badAttributeValue t, n⟩
  | r => r

/-- The case flag with a name. -/
def flag? (name : String) : Option CaseFlag :=
  match Names.lower name with
  | "i" => some .insensitive
  | "s" => some .sensitive
  | _ => none

/-- Reads the case flag, if anything follows. -/
def readFlag (items : List Item) : Except Failure (Option CaseFlag × List Item) :=
  match dropSkipped items with
  | [] => .ok (none, [])
  | t :: r =>
    let other := refuse (.unexpectedToken t.token) (left items)
    match t.token with
    | .ident name =>
      match flag? name with
      | some f => .ok (some f, r)
      | none => other
    | _ => other

/-- Reads the comparison, the value and the flag, if anything follows the name. -/
def readTest (items : List Item) : Except Failure (Option AttributeTest × List Item) :=
  match dropSkipped items with
  | [] => .ok (none, [])
  | t :: r =>
    match comparison? t.token with
    | none => refuse (.badAttributeOperator t.token) (left items)
    | some comparison => do
      let (value, r) ← readValue r
      let (flag, r) ← readFlag r
      return (some { comparison, value, flag }, r)

/-- The namespace that is kept: the empty one is that of a name without any. -/
def keptNamespace : Option Namespace → Option Namespace
  | some .empty => none
  | n => n

/-- Reads the inside of the brackets. -/
def read (items : List Item) : Except Failure Attribute := do
  let ((n, name), r) ← readName (dropSkipped items)
  let (test, r) ← readTest r
  exhausted ({ qualifier := keptNamespace n, name, test }, r)

end Attribute

end MailCss
