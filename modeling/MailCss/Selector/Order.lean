import MailCss.Selector.Basic
import MailCss.Sequence.Split

/-!
# Match order

A selector is kept in the order in which it is matched: the rightmost compound first, each
compound with its components as they are written, and the combinators between the compounds.

`Chain.toMatchOrder` goes from written order to match order in one pass. `chainOf` goes back: it
cuts the compounds apart, reverses their order and puts the combinators, read from right to left,
between them.
-/

namespace MailCss

/-- The match order of a chain, where `current` is the compound read so far and `behind` is what
comes before it, already in match order. -/
def Chain.toMatchOrderFrom (current behind : List Component) : Chain → List Component
  | [] => current ++ behind
  | c :: r =>
    if c.isCombinator then Chain.toMatchOrderFrom [] (c :: (current ++ behind)) r
    else Chain.toMatchOrderFrom (current ++ [c]) behind r

/-- The match order of a chain. -/
def Chain.toMatchOrder (chain : Chain) : List Component := Chain.toMatchOrderFrom [] [] chain

/-- The compounds, in written order, of a list in match order; `f` gives the component of an
element. -/
def compoundsBy {α : Type} (f : α → Component) (raw : List α) : List (List α) :=
  (Sequence.splitWhere (fun x => (f x).isCombinator) raw).reverse

/-- The combinators, in written order, of a list in match order. -/
def combinatorsBy {α : Type} (f : α → Component) (raw : List α) : List Combinator :=
  raw.reverse.filterMap fun x => (f x).combinator?

/-- Compounds with combinators in front of each. -/
def joinCompounds : List (List Component) → List Combinator → Chain
  | [], _ => []
  | c :: cs, [] => c ++ joinCompounds cs []
  | c :: cs, k :: ks => .combinator k :: (c ++ joinCompounds cs ks)

/-- The chain of a list in match order. -/
def chainOf (raw : List Component) : Chain :=
  match compoundsBy id raw with
  | [] => []
  | c :: cs => c ++ joinCompounds cs (combinatorsBy id raw)

end MailCss
