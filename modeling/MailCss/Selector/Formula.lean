import MailCss.Css.Lexer
import MailCss.Selector.Item
import MailCss.Selector.Names

/-!
# Formulas

The formulas `a n + b` of the counting pseudo-classes, read from items and written. Since a
number and its unit are one token and a minus may be part of a name, one formula can come in many
token sequences: `2n + 1`, `2n +1`, `2n+1`, `2n- 1`, `2n-1`, `n`, `-n-1` and so on.
-/

namespace MailCss

open Css (Token)

namespace AnPlusB

/-- The `b` of a name `n-b`, with its minus. -/
def dashDigits? (name : List Char) : Option Int :=
  match name with
  | n :: '-' :: ds =>
    if (n = 'n' ∨ n = 'N') ∧ ds ≠ [] ∧ ds.all Char.isDigit then
      some (max Decimal.Numeral.leastInt (-(Decimal.natOfDigits ds : Int)))
    else none
  | _ => none

/-- Reads `b` without a sign of its own. -/
def readUnsigned (a sign : Int) (items : List Item) : Except Failure (AnPlusB × List Item) :=
  match dropSkipped items with
  | [] => refuse .endOfInput 0
  | t :: r =>
    let other := refuse (.unexpectedToken t.token) (leftAfter t r)
    match t.token with
    | .number n =>
      match n.signed, n.int? with
      | false, some b => .ok (⟨a, sign * b⟩, r)
      | _, _ => other
    | _ => other

/-- Reads `b`, if it is there, with its sign. -/
def readOffset (a : Int) (items : List Item) : Except Failure (AnPlusB × List Item) :=
  match dropSkipped items with
  | [] => .ok (⟨a, 0⟩, items)
  | t :: r =>
    match t.token with
    | .delim c =>
      if c = '+' then readUnsigned a 1 r
      else if c = '-' then readUnsigned a (-1) r
      else .ok (⟨a, 0⟩, items)
    | .number n =>
      match n.signed, n.int? with
      | true, some b => .ok (⟨a, b⟩, r)
      | _, _ => .ok (⟨a, 0⟩, items)
    | _ => .ok (⟨a, 0⟩, items)

/-- Reads what follows a coefficient `a` that is written in front of `name`, where `name` is `n`
and what is attached to it. -/
def readName (a : Int) (name : String) (other : Cause) (here : Nat) (r : List Item) :
    Except Failure (AnPlusB × List Item) :=
  match Names.lower name with
  | "n" => readOffset a r
  | "n-" => readUnsigned a (-1) r
  | _ =>
    match dashDigits? name.toList with
    | some b => .ok (⟨a, b⟩, r)
    | none => refuse other here

/-- Reads a formula. -/
def read (items : List Item) : Except Failure (AnPlusB × List Item) :=
  match dropSkipped items with
  | [] => refuse .endOfInput 0
  | t :: r =>
    let here := leftAfter t r
    let other := refuse (.unexpectedToken t.token) here
    match t.token with
    | .number n =>
      match n.int? with
      | some b => .ok (⟨0, b⟩, r)
      | none => other
    | .dimension n unit =>
      match n.int? with
      | some a => readName a unit (.unexpectedToken (.ident unit)) here r
      | none => other
    | .ident name =>
      match Names.lower name with
      | "even" => .ok (⟨2, 0⟩, r)
      | "odd" => .ok (⟨2, 1⟩, r)
      | _ =>
        match name.toList with
        | '-' :: rest => readName (-1) (String.ofList rest) (.unexpectedToken t.token) here r
        | _ => readName 1 name (.unexpectedToken t.token) here r
    | .delim '+' =>
      -- A plus belongs to the name right behind it.
      match dropComments r with
      | [] => refuse .endOfInput 0
      | u :: r' =>
        let there := leftAfter u r'
        match u.token with
        | .ident name => readName 1 name (.unexpectedToken u.token) there r'
        | _ => refuse (.unexpectedToken u.token) there
    | _ => other

/-- An integer with its sign, also where it is a plus. -/
def signedText (i : Int) : List Char :=
  if 0 ≤ i then '+' :: (toString i).toList else (toString i).toList

/-- A formula in its shortest form. -/
def text (f : AnPlusB) : List Char :=
  if f.a = 0 then (toString f.b).toList
  else if f.a = 2 ∧ f.b = 1 then "odd".toList
  else
    let front := if f.a = 1 then [] else if f.a = -1 then ['-'] else (toString f.a).toList
    front ++ 'n' :: if f.b = 0 then [] else signedText f.b

end AnPlusB

end MailCss
