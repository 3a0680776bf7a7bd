import MailCss.Selector.Names
import MailCss.Selector.TypeName

/-!
# Compounds and selectors

Reading a selector from items: compounds of simple selectors with combinators between them, up to
the end of the items. `Flags` says what has been read and rules out what may not follow; a group
is read through its item's `enter`.

A list of selectors is read either strictly, and then it is refused as its first bad selector is, or
forgivingly, and then bad selectors are left out.
-/

namespace MailCss

open Css (Token)

/-! ## Pseudo-classes and pseudo-elements without arguments -/

/-- The pseudo-class of a document's structure with a name, if there is one. -/
def structural? (name : String) : Option Component :=
  let l := Names.lower name
  match Names.counting.lookup l with
  | some c => some (.nth c ⟨0, 1⟩)
  | none =>
    if l = "scope" then some .scope
    else if l ∈ Names.structural then some (.pseudoClass l .none)
    else none

/-- The pseudo-class with a name, or the cause for which it may not stand here. -/
def plainPseudoClass (flags : Flags) (name : String) : Except Cause Component :=
  if flags.afterSlotted then .error .invalidState
  else
    match (if flags.afterAny then none else structural? name) with
    | some c => .ok c
    | none =>
      let written := Names.pseudoClass name
      let c : Component := .pseudoClass written .none
      let ofScrollbar := written ∈ Names.scrollbarStates
      if flags.afterTransition && Names.lower name = "only-child" then
        .ok (.nth .onlyChild ⟨0, 1⟩)
      else if flags.afterScrollbar then
        if ofScrollbar ∨ written ∈ Names.afterScrollbar then .ok c
        else .error .pseudoClassAfterScrollbar
      else if flags.afterElement then
        if written ∈ Names.userActions then .ok c else .error .pseudoClassAfterPseudoElement
      else if ofScrollbar then .error .pseudoClassBeforeScrollbar
      else .ok c

/-- A pseudo-element that is known, behind its combinator. -/
def knownElement (c : Component) (raised : Flags) : Simple :=
  { components := [.combinator .toPseudoElement, c], raised := { raised with afterElement := true } }

/-- The pseudo-element with a name. -/
def plainPseudoElement (name : String) : Simple :=
  match Names.pseudoElement? name with
  | some s =>
    knownElement (.pseudoElement s .none) { afterScrollbar := s ∈ Names.scrollbarElements }
  | none => { components := [.pseudoElement name .none] }

/-! ## Simple selectors -/

/-- Reads a pseudo-class or pseudo-element behind its colons; `doubled` says that there are two,
and `start` is what is left after the first. -/
def readPseudo (flags : Flags) (doubled : Bool) (start : List Item) (t : Item) (r : List Item) :
    Except Failure (Simple × List Item) := do
  let element (name : String) := doubled || Names.lower name ∈ Names.oneColon
  let barred := flags.afterElement || flags.noPseudoElements
  match t.token with
  | .ident name =>
    if element name then
      if barred then refuse .invalidState (left r)
      else
        let e := plainPseudoElement name
        let slottable := (Names.pseudoElement? name).any (· ∈ Names.slottable)
        if flags.afterSlotted && !slottable then refuse .invalidState (left r) else return (e, r)
    else
      match plainPseudoClass flags name with
      | .ok c => return ({ components := [c] }, r)
      | .error cause => refuse cause (left start)
  | .function name =>
    if element name then
      if barred then refuse .invalidState (leftAfter t r)
      else
        let e ← enterGroup .pseudoElement flags t r
        if flags.afterSlotted then refuse .invalidState (left r) else return (e, r)
    else return (← enterGroup .pseudoClass flags t r, r)
  | other => refuse (.pseudoNeedsIdent other) (leftAfter t r)

/-- Reads a class name behind its point. -/
def readClassName (items : List Item) : Except Failure (Simple × List Item) :=
  match dropComments items with
  | [] => refuse .endOfInput 0
  | t :: r =>
    match t.token with
    | .ident name => .ok ({ components := [.className name] }, r)
    | other => refuse (.classNeedsIdent other) (left items)

/-- Reads what follows a colon. -/
def readColon (flags : Flags) (items : List Item) : Except Failure (Simple × List Item) :=
  match dropComments items with
  | [] => refuse .endOfInput 0
  | t :: r =>
    if t.token = .colon then
      match dropComments r with
      | [] => refuse .endOfInput 0
      | u :: r' => readPseudo flags true items u r'
    else readPseudo flags false items t r

/-- Reads a simple selector other than a type selector, if there is one. -/
def readSimple? (flags : Flags) (items : List Item) :
    Option (Except Failure (Simple × List Item)) :=
  match dropComments items with
  | [] => none
  | t :: r =>
    -- Identifiers, classes and attributes may not follow a pseudo-element.
    let unlessAfter (x : Except Failure (Simple × List Item)) :=
      if flags.afterAny then refuse (.afterPseudoElement t.token) (left items) else x
    match t.token with
    | .idHash name => some (unlessAfter (.ok ({ components := [.id name] }, r)))
    | .delim '.' => some (unlessAfter (readClassName r))
    | .squareOpen =>
      some (unlessAfter ((enterGroup .attribute flags t r).map fun s => (s, r)))
    | .colon => some (readColon flags r)
    | .delim '&' => some (.ok ({ components := [.nesting] }, r))
    | _ => none

/-! ## Compounds and selectors -/

/-- What a compound is read into: its components, the flags behind it and what is left. -/
structure Progress where
  components : List Component
  flags : Flags
  rest : List Item

/-- Reads simple selectors as long as there are any; `fuel` bounds their number. -/
def readSimples : Nat → Progress → Except Failure Progress
  | 0, p => .ok p
  | fuel + 1, p =>
    match readSimple? p.flags p.rest with
    | none => .ok p
    | some (.error f) => .error f
    | some (.ok (s, rest)) =>
      readSimples fuel
        { components := p.components ++ s.components, flags := p.flags.join s.raised, rest }

/-- Reads the nesting selector, if the items begin with it. -/
def readNesting (items : List Item) : List Component × List Item :=
  match dropSkipped items with
  | [] => ([], [])
  | t :: r => if t.token = .delim '&' then ([.nesting], r) else ([], t :: r)

/-- Reads a compound, which may turn out to be empty. -/
def readCompound (flags : Flags) (items : List Item) : Except Failure Progress := do
  let (front, r) := readNesting items
  let (type, r) ← readType flags r
  readSimples r.length { components := front ++ type, flags, rest := r }

/-- The combinator that a token stands for. -/
def combinator? : Token → Option Combinator
  | .delim '>' => some .child
  | .delim '+' => some .nextSibling
  | .delim '~' => some .laterSibling
  | _ => none

/-- Reads a combinator with the white space around it, if the items do not end: `blank` says that
white space has been read, and `here` is what is left after it. -/
def readCombinatorFrom (blank : Bool) (here : List Item) : List Item → Option Combinator × List Item
  | [] => (none, [])
  | t :: r =>
    match t.token with
    | .comment _ => readCombinatorFrom blank here r
    | .whitespace _ => readCombinatorFrom true r r
    | token =>
      match combinator? token with
      | some c => (some c, r)
      | none => (if blank then some .descendant else none, here)

/-- Reads a combinator, if the items do not end. -/
def readCombinator (items : List Item) : Option Combinator × List Item :=
  readCombinatorFrom false items items

/-- Reads compounds and combinators behind `built`; `fuel` bounds the number of compounds. -/
def readCompounds : Nat → Flags → Chain → List Item → Except Failure (Chain × List Item)
  | 0, _, built, items => .ok (built, items)
  | fuel + 1, flags, built, items => do
    let p ← readCompound flags items
    let chain := built ++ p.components
    if p.components.isEmpty then
      let cause : Cause :=
        if built.any Component.isCombinator then .danglingCombinator else .emptySelector
      refuse cause (left p.rest)
    else if p.flags.afterAny then
      match dropSkipped p.rest with
      | [] => return (chain, [])
      | t :: _ => refuse (.afterPseudoElement t.token) (left p.rest)
    else
      match readCombinator p.rest with
      | (none, r) => return (chain, r)
      | (some c, r) =>
        if p.flags.noCombinators then refuse .invalidState (left r)
        else readCompounds fuel p.flags (chain ++ [.combinator c]) r

/-- Reads a selector up to the end of the items. -/
def readSelector (flags : Flags) (items : List Item) : Except Failure Chain := do
  exhausted (← readCompounds (items.length + 1) flags [] items)

/-- Reads a selector into match order. -/
def readMatchOrder (flags : Flags) (items : List Item) : Except Failure (List Component) :=
  (readSelector flags items).map Chain.toMatchOrder

/-- Reads a selector that may begin with a combinator; that combinator applies to the scope. -/
def readRelative (flags : Flags) (items : List Item) : Except Failure (List Component) :=
  match dropSkipped items with
  | [] => refuse .endOfInput 0
  | t :: r =>
    match combinator? t.token with
    | some c => (readMatchOrder flags r).map fun cs => cs ++ [.combinator c, .scope]
    | none => readMatchOrder flags items

/-- Reads a list of selectors, leaving out those that cannot be read. -/
def readForgivingList (flags : Flags) (items : List Item) : List (List Component) :=
  readForgiving (readMatchOrder flags) (segments items)

end MailCss
