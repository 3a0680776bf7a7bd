import Mathlib.Data.List.Basic
import MailCss.Client

/-!
# Nodes at any depth

The nodes in a style sheet at any depth, in the order in which they are written, alone (`within`)
and with the at-rules that enclose them (`places`); and the at-rules among them, each after those
in its block (`atRules`).

A node's *core* is what it says apart from its selector and from the nodes in it. Adapting the
selectors of nodes leaves all cores as they are and where they are (`cores_adaptAll`).
-/

namespace MailCss

open Text (Location)

/-- The name and the parameters of an at-rule. -/
structure AtHead where
  name : String
  params : String
  deriving DecidableEq, Repr

/-- A node and the at-rules around it, the outermost first. -/
structure Placed where
  around : List AtHead
  node : Node

/-- What a node says apart from its selector and from the nodes in it. -/
inductive Core where
  | rule (location : Location)
  | atRule (name params : String) (hasBlock : Bool) (location : Location)
  | declaration (property value : String)
  | comment (text : String)
  deriving DecidableEq, Repr

namespace Node

/-- The core of a node. -/
def core : Node → Core
  | .rule _ _ location => .rule location
  | .atRule name params block location => .atRule name params block.isSome location
  | .declaration property value => .declaration property value
  | .comment text => .comment text

mutual

/-- A node and the nodes in it. -/
def within : Node → List Node
  | .rule selector nodes location => .rule selector nodes location :: withinAll nodes
  | .atRule name params (some nodes) location =>
    .atRule name params (some nodes) location :: withinAll nodes
  | .atRule name params none location => [.atRule name params none location]
  | .declaration property value => [.declaration property value]
  | .comment text => [.comment text]

/-- Siblings and the nodes in them. -/
def withinAll : List Node → List Node
  | [] => []
  | n :: ns => n.within ++ withinAll ns

end

mutual

/-- A node and the nodes in it, each with the at-rules around it; `around` are those around the
node itself. -/
def places (around : List AtHead) : Node → List Placed
  | .rule selector nodes location =>
    ⟨around, .rule selector nodes location⟩ :: placesAll around nodes
  | .atRule name params (some nodes) location =>
    ⟨around, .atRule name params (some nodes) location⟩ ::
      placesAll (around ++ [⟨name, params⟩]) nodes
  | .atRule name params none location => [⟨around, .atRule name params none location⟩]
  | .declaration property value => [⟨around, .declaration property value⟩]
  | .comment text => [⟨around, .comment text⟩]

/-- Siblings and the nodes in them, each with the at-rules around it. -/
def placesAll (around : List AtHead) : List Node → List Placed
  | [] => []
  | n :: ns => places around n ++ placesAll around ns

end

mutual

/-- The at-rules in a node, and the node itself if it is one: an at-rule comes after those in its
block. -/
def atRules : Node → List AtRule
  | .rule _ nodes _ => atRulesAll nodes
  | .atRule name params (some nodes) location =>
    atRulesAll nodes ++ [⟨name, params, some nodes, location⟩]
  | .atRule name params none location => [⟨name, params, none, location⟩]
  | .declaration .. | .comment _ => []

/-- The at-rules among siblings and in them. -/
def atRulesAll : List Node → List AtRule
  | [] => []
  | n :: ns => n.atRules ++ atRulesAll ns

end

/-- The cores of siblings and of the nodes in them. -/
def cores (ns : List Node) : List Core := (withinAll ns).map core

@[simp] theorem withinAll_append (ns ms : List Node) :
    withinAll (ns ++ ms) = withinAll ns ++ withinAll ms := by
  induction ns with
  | nil => rfl
  | cons n ns ih => simp [withinAll, ih]

mutual

/-- Without the at-rules around them, the places of nodes are the nodes. -/
theorem map_node_places (around : List AtHead) :
    ∀ n : Node, (places around n).map Placed.node = n.within
  | .rule selector nodes location => by simp [places, within, map_node_placesAll around nodes]
  | .atRule name params (some nodes) location => by
    simp [places, within, map_node_placesAll (around ++ [⟨name, params⟩]) nodes]
  | .atRule _ _ none _ => by simp [places, within]
  | .declaration .. => by simp [places, within]
  | .comment _ => by simp [places, within]

theorem map_node_placesAll (around : List AtHead) :
    ∀ ns : List Node, (placesAll around ns).map Placed.node = withinAll ns
  | [] => rfl
  | n :: ns => by
    simp [placesAll, withinAll, map_node_places around n, map_node_placesAll around ns]

end

mutual

theorem mem_atRules {r : AtRule} : ∀ n : Node, r ∈ n.atRules ↔ r.node ∈ n.within
  | .rule _ nodes _ => by
    simp [atRules, within, mem_atRulesAll nodes, AtRule.node]
  | .atRule name params (some nodes) location => by
    obtain ⟨name', params', block', location'⟩ := r
    simp only [atRules, within, List.mem_append, List.mem_cons, List.not_mem_nil, or_false,
      mem_atRulesAll nodes, AtRule.node, AtRule.mk.injEq, Node.atRule.injEq]
    exact or_comm
  | .atRule name params none location => by
    obtain ⟨name', params', block', location'⟩ := r
    simp [atRules, within, AtRule.node]
  | .declaration .. => by simp [atRules, within, AtRule.node]
  | .comment _ => by simp [atRules, within, AtRule.node]

/-- The at-rules are the nodes at any depth that are at-rules. -/
theorem mem_atRulesAll {r : AtRule} :
    ∀ ns : List Node, r ∈ atRulesAll ns ↔ r.node ∈ withinAll ns
  | [] => by simp [atRulesAll, withinAll]
  | n :: ns => by
    simp only [atRulesAll, withinAll, List.mem_append, mem_atRules n, mem_atRulesAll ns]

end

@[simp] theorem cores_nil : cores [] = [] := rfl

@[simp] theorem cores_append (ns ms : List Node) : cores (ns ++ ms) = cores ns ++ cores ms := by
  simp [cores]

theorem cores_cons (n : Node) (ns : List Node) :
    cores (n :: ns) = n.within.map core ++ cores ns := by
  simp [cores, withinAll]

/-- The cores of an at-rule on its own. -/
theorem cores_atRule (r : AtRule) :
    cores [r.node] =
      .atRule r.name r.params r.block.isSome r.location :: cores (r.block.getD []) := by
  obtain ⟨name, params, _ | nodes, location⟩ := r <;>
    simp [AtRule.node, cores, withinAll, within, core]

theorem mem_cores {c : Core} {ns : List Node} : c ∈ cores ns ↔ ∃ n ∈ withinAll ns, n.core = c :=
  List.mem_map

mutual

/-- Adapting selectors leaves all cores as they are. -/
theorem cores_adapt (f : String → Except AdaptError String) :
    ∀ n : Node, (n.adapt f).1.within.map core = n.within.map core
  | .rule selector nodes location => by
    rw [adapt]
    split <;> simp [within, core]
  | .atRule name params (some nodes) location => by
    have h := cores_adaptAll f nodes
    simp only [cores] at h
    simp [adapt, within, core, h]
  | .atRule _ _ none _ => by simp [adapt]
  | .declaration .. => by simp [adapt]
  | .comment _ => by simp [adapt]

theorem cores_adaptAll (f : String → Except AdaptError String) :
    ∀ ns : List Node, cores (adaptAll f ns).nodes = cores ns
  | [] => rfl
  | n :: ns => by
    simp [adaptAll, cores_cons, cores_adapt f n, cores_adaptAll f ns]

end

end Node

end MailCss
