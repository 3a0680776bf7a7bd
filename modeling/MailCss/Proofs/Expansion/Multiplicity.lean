import Mathlib
import MailCss.Expand
import MailCss.Proofs.Stylesheet.Descendants

/-!
# How often expansion copies a node

Expansion replaces a client at-rule by one copy for each client of its list, and a copy holds what
the at-rule held. So a declaration or a style rule is in the result once for each way of choosing
one client from every list around it: as often as the product of the lengths of these lists.

Main statement: `expand_count`.
-/

namespace MailCss

open Node

/-- How many copies expansion makes of what has these at-rules around it. -/
def copies (o : Options) (around : List AtHead) : Nat :=
  ((around.filter (·.name = o.atRuleName)).map fun h => (splitClients h.params).length).prod

/-- How often a core is to be in the result: the sum over its places of how often each is copied. -/
def weight (o : Options) (c : Core) (places : List Placed) : Nat :=
  ((places.filter (·.node.core = c)).map fun p => copies o p.around).sum

/-- A core that only nodes of the source have: expansion makes at-rules and comments of its own. -/
def Core.IsOwn : Core → Prop
  | .rule _ | .declaration .. => True
  | .atRule .. | .comment _ => False

variable {o : Options} {c : Core}

/-! ## Weights -/

theorem copies_append (o : Options) (as bs : List AtHead) :
    copies o (as ++ bs) = copies o as * copies o bs := by
  simp [copies]

/-- An at-rule of the chosen name multiplies by the length of its list, another one does not. -/
theorem copies_singleton (o : Options) (name params : String) :
    copies o [⟨name, params⟩] =
      if name = o.atRuleName then (splitClients params).length else 1 := by
  by_cases h : name = o.atRuleName <;> simp [copies, h]

@[simp] theorem weight_nil : weight o c [] = 0 := rfl

@[simp] theorem weight_append (ps qs : List Placed) :
    weight o c (ps ++ qs) = weight o c ps + weight o c qs := by
  simp [weight]

theorem weight_cons (p : Placed) (ps : List Placed) :
    weight o c (p :: ps) = (if p.node.core = c then copies o p.around else 0) + weight o c ps := by
  by_cases h : p.node.core = c <;> simp [weight, h]

mutual

/-- The at-rules around a node multiply the weight of all that is in it. -/
theorem weight_places (around : List AtHead) :
    ∀ n : Node, weight o c (places around n) = copies o around * weight o c (places [] n)
  | .rule selector nodes location => by
    simp only [places, weight_cons, weight_placesAll around nodes]
    split <;> simp [copies, Nat.mul_add]
  | .atRule name params (some nodes) location => by
    have hin := weight_placesAll (around ++ [⟨name, params⟩]) nodes
    have hout := weight_placesAll ([] ++ [⟨name, params⟩]) nodes
    simp only [places, weight_cons, hin, hout, copies_append, Nat.mul_add, Nat.mul_assoc]
    split <;> simp [copies]
  | .atRule name params none location => by
    simp only [places, weight_cons, weight_nil]
    split <;> simp [copies]
  | .declaration property value => by
    simp only [places, weight_cons, weight_nil]
    split <;> simp [copies]
  | .comment text => by
    simp only [places, weight_cons, weight_nil]
    split <;> simp [copies]

theorem weight_placesAll (around : List AtHead) :
    ∀ ns : List Node,
      weight o c (placesAll around ns) = copies o around * weight o c (placesAll [] ns)
  | [] => by simp [placesAll]
  | n :: ns => by
    simp only [placesAll, weight_append, weight_places around n, weight_placesAll around ns,
      Nat.mul_add]

end

/-! ## Copies -/

/-- An at-rule adds nothing to what its block holds. -/
theorem count_atRule (hc : c.IsOwn) (r : AtRule) :
    (cores [r.node]).count c = (cores (r.block.getD [])).count c := by
  rw [cores_atRule, List.count_cons_of_ne]
  intro h
  rw [← h] at hc
  exact hc

/-- A client's conversion keeps what the block of an at-rule holds. -/
theorem count_convert (hc : c.IsOwn) (client : Client) (bodyClass : String) (r : AtRule) :
    (cores (client.convert bodyClass r).nodes).count c = (cores (r.block.getD [])).count c := by
  simp only [Client.convert]
  split
  · exact count_atRule hc _
  · rw [cores_adaptAll]
  · rw [cores_adaptAll]

/-- A copy holds what the block of the at-rule holds. -/
theorem count_copyFor (hc : c.IsOwn) (r : AtRule) (name : String) :
    (cores (r.copyFor o name).nodes).count c = (cores (r.block.getD [])).count c := by
  have hcomment : (cores (if o.comment then
      [clientComment name (Client.ofName? name).isSome] else [])).count c = 0 := by
    split
    · refine List.count_eq_zero.2 fun hmem => ?_
      simp only [clientComment, cores, withinAll, within, core, List.append_nil, List.map_cons,
        List.map_nil, List.mem_singleton] at hmem
      rw [hmem] at hc
      exact hc
    · simp
  simp only [AtRule.copyFor, Expansion.nodes_append, cores_append, List.count_append, hcomment,
    Nat.zero_add]
  split
  · exact count_convert hc _ _ _
  · exact count_atRule hc _

theorem count_copiesFor (hc : c.IsOwn) (r : AtRule) (names : List String) :
    (cores (r.copiesFor o names).nodes).count c =
      names.length * (cores (r.block.getD [])).count c := by
  induction names with
  | nil => simp [AtRule.copiesFor]
  | cons name names ih =>
    rw [AtRule.copiesFor, Expansion.nodes_append, cores_append, List.count_append,
      count_copyFor hc, ih, List.length_cons, Nat.succ_mul, Nat.add_comm]

/-- What replaces an at-rule holds its block as often as the at-rule is copied. -/
theorem count_expandNamed (hc : c.IsOwn) (r : AtRule) :
    (cores (r.expandNamed o).nodes).count c =
      copies o [⟨r.name, r.params⟩] * (cores (r.block.getD [])).count c := by
  rw [AtRule.expandNamed, copies_singleton]
  split
  · rw [AtRule.expand]
    split
    · rename_i hnames
      simp [hnames]
    · exact count_copiesFor hc r _
  · rw [Nat.one_mul]
    exact count_atRule hc r

mutual

/-- What replaces a node holds a core as often as its weight says. -/
theorem count_expand (hc : c.IsOwn) :
    ∀ n : Node, (cores (n.expand o).nodes).count c = weight o c (places [] n)
  | .rule selector nodes location => by
    have hin := count_expandAll hc nodes
    simp only [cores] at hin
    simp only [Node.expand, cores_cons, within, core, List.map_cons, cores_nil, List.append_nil,
      List.count_cons, hin, places, weight_cons, beq_iff_eq]
    by_cases h : Core.rule location = c
    · simp [h, copies, Nat.add_comm]
    · simp [h]
  | .atRule name params none location => by
    rw [Node.expand, count_expandNamed hc, places, weight_cons, if_neg]
    · simp
    · rintro rfl
      exact hc
  | .atRule name params (some nodes) location => by
    have hin := weight_placesAll (o := o) (c := c) ([] ++ [⟨name, params⟩]) nodes
    simp only [Node.expand, count_expandNamed hc, places, weight_cons, Option.getD_some]
    rw [count_expandAll hc nodes, if_neg, Nat.zero_add, hin]
    · rfl
    · rintro rfl
      exact hc
  | .declaration property value => by
    simp only [Node.expand, cores_cons, within, core, cores_nil, List.map_cons, List.map_nil,
      List.append_nil, List.count_singleton, places, weight_cons, weight_nil, beq_iff_eq]
    by_cases h : Core.declaration property value = c
    · simp [h, copies]
    · simp [h]
  | .comment text => by
    rw [Node.expand, places, weight_cons, if_neg]
    · refine List.count_eq_zero.2 fun hmem => ?_
      simp only [cores, withinAll, within, core, List.append_nil, List.map_cons, List.map_nil,
        List.mem_singleton] at hmem
      rw [hmem] at hc
      exact hc
    · rintro rfl
      exact hc

theorem count_expandAll (hc : c.IsOwn) :
    ∀ ns : List Node, (cores (Node.expandAll o ns).nodes).count c = weight o c (placesAll [] ns)
  | [] => rfl
  | n :: ns => by
    rw [Node.expandAll, Expansion.nodes_append, cores_append, List.count_append,
      count_expand hc n, count_expandAll hc ns, placesAll, weight_append]

end

/-- Every declaration, and the style rules at every location, are in an expanded style sheet as
often as the client lists around them ask for. -/
theorem Stylesheet.expand_count (o : Options) (s : Stylesheet) :
    (∀ property value,
      (cores (s.expand o).nodes).count (.declaration property value) =
        weight o (.declaration property value) (placesAll [] s.nodes)) ∧
    ∀ location,
      (cores (s.expand o).nodes).count (.rule location) =
        weight o (.rule location) (placesAll [] s.nodes) := by
  constructor
  · intro property value
    exact count_expandAll (c := .declaration property value) trivial s.nodes
  · intro location
    exact count_expandAll (c := .rule location) trivial s.nodes

end MailCss
