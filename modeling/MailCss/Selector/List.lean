import MailCss.Selector.Group
import MailCss.Selector.Printer
import MailCss.Text.Location

/-!
# Selectors and selector lists

Selectors between commas, which can be taken apart into chains, put together from chains, read and
written.
-/

namespace MailCss

/-- A selector, by its components in match order. -/
structure Selector where
  matchOrder : List Component
  deriving Repr, Inhabited

namespace Selector

/-- The components in written order. -/
def chain (s : Selector) : Chain := chainOf s.matchOrder

/-- The selector with a chain. -/
def ofChain (c : Chain) : Selector := ⟨c.toMatchOrder⟩

/-- A selector as CSS. -/
def text (s : Selector) : List Char := Printed.selector false (printedAll s.matchOrder)

end Selector

/-- Selectors between commas. -/
structure SelectorList where
  selectors : List Selector
  deriving Repr, Inhabited

/-- Why a text is no selector list, and where: line and column both count from one. -/
structure SelectorError where
  cause : Cause
  line : Nat
  column : Nat
  deriving DecidableEq, Repr, Inhabited

namespace SelectorList

/-- The chains of the selectors. -/
def chains (l : SelectorList) : List Chain := l.selectors.map Selector.chain

/-- The selectors with chains. -/
def ofChains (cs : List Chain) : SelectorList := ⟨cs.map Selector.ofChain⟩

/-- The chain of the first selector; empty if there is none. -/
def firstChain (l : SelectorList) : Chain := (l.selectors.head?.map Selector.chain).getD []

/-- A selector list as CSS. -/
def text (l : SelectorList) : List Char := joinTexts ", ".toList (l.selectors.map Selector.text)

/-- A selector list as CSS. -/
def print (l : SelectorList) : String := String.ofList l.text

/-- Where a failure is in a text. -/
def locate (s : List Char) (f : Failure) : SelectorError :=
  let m := Text.Mark.start.advance (s.take (s.length - f.left))
  { cause := f.cause, line := m.line, column := m.column + 1 }

/-- Reads a selector list. -/
def read (s : List Char) : Except Failure SelectorList :=
  (readSelectorList (Item.ofTrees (Css.TokenTree.ofText s))).map fun ss => ⟨ss.map Selector.mk⟩

/-- The selector list that a text holds. -/
def parse (source : String) : Except SelectorError SelectorList :=
  (read source.toList).mapError (locate source.toList)

end SelectorList

end MailCss
