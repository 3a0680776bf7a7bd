import MailCss.Selector.Basic

/-!
# Editing chains

Putting an ancestor in front of a chain, and putting other components in the place of some of its
own. The *anchor* of a chain is its first component that is the body element or stands for it.
-/

namespace MailCss.Chain

/-- The chain with `ancestor` in front as an ancestor; an empty ancestor is none. -/
def prepend (ancestor chain : Chain) : Chain :=
  if ancestor.isEmpty then chain else ancestor ++ .combinator .descendant :: chain

/-- Every chain with `ancestor` in front. -/
def wrapAll (ancestor : Chain) (chains : List Chain) : List Chain := chains.map (prepend ancestor)

/-- The chain with `replacement` in the place of the component at position `i`. -/
def splice (replacement : Chain) (i : Nat) (chain : Chain) : Chain :=
  chain.take i ++ replacement ++ chain.drop (i + 1)

/-- The chain with `replacement` in the place of each component at a position in `targets`. The
last position comes first, so that the positions in front of it stay where they are. -/
def replaceAt (targets : List Nat) (replacement chain : Chain) : Chain :=
  (List.range chain.length).foldr
    (fun i c => if i ∈ targets then splice replacement i c else c) chain

/-- The chain with `replacement` in the place of its anchor, or in front as an ancestor where
there is none. -/
def retarget (bodyClass : String) (replacement chain : Chain) : Chain :=
  match chain.findIdx? (Component.isAnchor bodyClass) with
  | some i => replaceAt [i] replacement chain
  | none => prepend replacement chain

end MailCss.Chain
