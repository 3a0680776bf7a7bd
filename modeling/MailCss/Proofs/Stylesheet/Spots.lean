import MailCss.Proofs.Stylesheet.Descendants

/-!
# Spots

A *spot* is a place for a node in a style sheet: everything but the node that stands there. Two
style sheets that differ in one node are the same spot with two nodes in it.

Main statement: `mem_withinAll_iff_fill` (the nodes at any depth are those at the spots).
-/

namespace MailCss

open Text (Location)

/-- A place for a node: between siblings, or in the block of a style rule or an at-rule between
siblings. -/
inductive Spot where
  | among (before after : List Node)
  | inRule (before : List Node) (selector : String) (inner : Spot) (location : Location)
    (after : List Node)
  | inAtRule (before : List Node) (name params : String) (inner : Spot) (location : Location)
    (after : List Node)

theorem Node.mem_within_self (n : Node) : n ∈ n.within := by
  cases n with
  | atRule name params block location => cases block <;> exact List.mem_cons_self
  | rule | declaration | comment => exact List.mem_cons_self

namespace Spot

/-- The nodes of the style sheet that has `n` at the spot. -/
def fill (n : Node) : Spot → List Node
  | .among before after => before ++ n :: after
  | .inRule before selector inner location after =>
    before ++ .rule selector (inner.fill n) location :: after
  | .inAtRule before name params inner location after =>
    before ++ .atRule name params (some (inner.fill n)) location :: after

/-- The same spot with more siblings around it. -/
def between (front back : List Node) : Spot → Spot
  | .among before after => .among (front ++ before) (after ++ back)
  | .inRule before selector inner location after =>
    .inRule (front ++ before) selector inner location (after ++ back)
  | .inAtRule before name params inner location after =>
    .inAtRule (front ++ before) name params inner location (after ++ back)

theorem fill_between (n : Node) (front back : List Node) (spot : Spot) :
    (spot.between front back).fill n = front ++ spot.fill n ++ back := by
  cases spot <;> simp [between, fill]

theorem mem_withinAll_fill (n : Node) (spot : Spot) : n ∈ Node.withinAll (spot.fill n) := by
  induction spot with
  | among before after => simp [fill, Node.withinAll, Node.mem_within_self]
  | inRule before selector inner location after ih =>
    simp [fill, Node.withinAll, Node.within, ih]
  | inAtRule before name params inner location after ih =>
    simp [fill, Node.withinAll, Node.within, ih]

end Spot

open Spot

mutual

theorem exists_fill_of_mem_within {n : Node} :
    ∀ {k : Node}, n ∈ k.within → ∃ spot : Spot, spot.fill n = [k]
  | .rule selector nodes location, h => by
    rcases List.mem_cons.1 h with rfl | h
    · exact ⟨.among [] [], rfl⟩
    · obtain ⟨spot, rfl⟩ := exists_fill_of_mem_withinAll h
      exact ⟨.inRule [] selector spot location [], rfl⟩
  | .atRule name params (some nodes) location, h => by
    rcases List.mem_cons.1 h with rfl | h
    · exact ⟨.among [] [], rfl⟩
    · obtain ⟨spot, rfl⟩ := exists_fill_of_mem_withinAll h
      exact ⟨.inAtRule [] name params spot location [], rfl⟩
  | .atRule _ _ none _, h => by
    obtain rfl := List.mem_singleton.1 h
    exact ⟨.among [] [], rfl⟩
  | .declaration .., h => by
    obtain rfl := List.mem_singleton.1 h
    exact ⟨.among [] [], rfl⟩
  | .comment _, h => by
    obtain rfl := List.mem_singleton.1 h
    exact ⟨.among [] [], rfl⟩

theorem exists_fill_of_mem_withinAll {n : Node} :
    ∀ {ns : List Node}, n ∈ Node.withinAll ns → ∃ spot : Spot, spot.fill n = ns
  | k :: ks, h => by
    rcases List.mem_append.1 h with h | h
    · obtain ⟨spot, hspot⟩ := exists_fill_of_mem_within h
      refine ⟨spot.between [] ks, ?_⟩
      rw [fill_between, hspot, List.nil_append, List.singleton_append]
    · obtain ⟨spot, rfl⟩ := exists_fill_of_mem_withinAll h
      refine ⟨spot.between [k] [], ?_⟩
      rw [fill_between, List.append_nil, List.singleton_append]

end

/-- The nodes of a style sheet at any depth are those at its spots. -/
theorem mem_withinAll_iff_fill {n : Node} {ns : List Node} :
    n ∈ Node.withinAll ns ↔ ∃ spot : Spot, spot.fill n = ns := by
  constructor
  · exact exists_fill_of_mem_withinAll
  · rintro ⟨spot, rfl⟩
    exact mem_withinAll_fill n spot

end MailCss
