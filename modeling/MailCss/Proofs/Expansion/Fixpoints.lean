import MailCss.Proofs.Expansion.Complete

/-!
# What expansion leaves as it is

Without comments, expansion leaves a style sheet as it is exactly if that is final at every depth.
It has to be, since the result always is; and a final client at-rule is replaced by one copy of
itself, for the one client that it names. So a second expansion changes nothing, and finds each
client at-rule that is left, inner ones first.

Main statement: `expand_fixed_iff`.
-/

namespace MailCss

open Text (Location)
open Node

/-- Parameters that name one client list it. -/
theorem UnknownClient.splitClients_eq {params : String} (h : UnknownClient params) :
    splitClients params = [params] := by
  have hparts : Sequence.splitWhere (· == ',') params.toList = [params.toList] := by
    refine Sequence.splitWhere_eq_singleton fun c hc => ?_
    have hne : c ≠ ',' := fun heq => h.no_comma (heq ▸ hc)
    simpa using hne
  have hne : params.toList ≠ [] := by simpa using h.ne_empty
  simp [splitClients, hparts, h.trimmed, hne]

namespace Node

variable {name : String}

theorem AllFinal.of_rule {selector : String} {ns : List Node} {location : Location}
    (h : AllFinal name [.rule selector ns location]) : AllFinal name ns := by
  intro c hc
  refine h c ?_
  rw [cores_cons, within, List.map_cons]
  exact List.mem_append_left _ (List.mem_cons_of_mem _ hc)

theorem AllFinal.of_atRule {r : AtRule} (h : AllFinal name [r.node]) :
    (r.name = name → UnknownClient r.params) ∧ AllFinal name (r.block.getD []) := by
  rw [AllFinal, cores_atRule] at h
  exact ⟨h _ List.mem_cons_self, fun c hc => h c (List.mem_cons_of_mem _ hc)⟩

theorem AllFinal.of_cons {n : Node} {ns : List Node} (h : AllFinal name (n :: ns)) :
    AllFinal name [n] ∧ AllFinal name ns :=
  allFinal_append.1 h

theorem atRulesAll_append (ns ks : List Node) :
    atRulesAll (ns ++ ks) = atRulesAll ns ++ atRulesAll ks := by
  induction ns with
  | nil => rfl
  | cons n ns ih => simp [atRulesAll, ih]

end Node

/-- The client at-rules at any depth, each after those in its block. -/
def clientRules (o : Options) (ns : List Node) : List AtRule :=
  (atRulesAll ns).filter (·.name = o.atRuleName)

/-- What is found where each of these at-rules is for a client that is not known. -/
def unsupported (rs : List AtRule) : List Finding :=
  rs.map fun r => .unsupportedClient r.params r.location

variable {o : Options}

theorem unsupported_append (rs ts : List AtRule) :
    unsupported (rs ++ ts) = unsupported rs ++ unsupported ts := by
  simp [unsupported]

theorem clientRules_append (ns ks : List Node) :
    clientRules o (ns ++ ks) = clientRules o ns ++ clientRules o ks := by
  simp [clientRules, atRulesAll_append]

theorem clientRules_rule (selector : String) (ns : List Node) (location : Location) :
    clientRules o [.rule selector ns location] = clientRules o ns := by
  simp [clientRules, atRulesAll, atRules]

theorem clientRules_atRule (r : AtRule) :
    clientRules o [r.node] =
      clientRules o (r.block.getD []) ++ if r.name = o.atRuleName then [r] else [] := by
  obtain ⟨name, params, _ | nodes, location⟩ := r <;>
    simp [clientRules, atRulesAll, atRules, AtRule.node, List.filter_singleton]

/-- Siblings are final at every depth if the client at-rules are. -/
theorem allFinal_iff_clientRules {ns : List Node} :
    AllFinal o.atRuleName ns ↔ ∀ r ∈ clientRules o ns, UnknownClient r.params := by
  simp only [clientRules, List.mem_filter, decide_eq_true_eq, mem_atRulesAll]
  constructor
  · rintro h r ⟨hr, hname⟩
    exact h _ (mem_cores.2 ⟨r.node, hr, rfl⟩) hname
  · intro h c hc
    obtain ⟨n, hn, rfl⟩ := mem_cores.1 hc
    cases n with
    | atRule name params block location =>
      exact fun hname => h ⟨name, params, block, location⟩ ⟨hn, hname⟩
    | rule => trivial
    | declaration => trivial
    | comment => trivial

/-- A final at-rule is replaced by itself. -/
theorem expandNamed_of_final (ho : o.comment = false) {r : AtRule}
    (h : r.name = o.atRuleName → UnknownClient r.params) :
    r.expandNamed o = ⟨[r.node], unsupported (if r.name = o.atRuleName then [r] else [])⟩ := by
  rw [AtRule.expandNamed]
  split
  · rename_i hname
    have hunknown : UnknownClient r.params := h hname
    rw [AtRule.expand, hunknown.splitClients_eq]
    show AtRule.copiesFor o r [r.params] = _
    rw [AtRule.copiesFor, AtRule.copiesFor, AtRule.copyFor_of_comment_eq_false ho, hunknown.unknown]
    rfl
  · rfl

mutual

/-- What is final at every depth is replaced by itself. -/
theorem expand_of_final (ho : o.comment = false) :
    ∀ n : Node, AllFinal o.atRuleName [n] →
      n.expand o = ⟨[n], unsupported (clientRules o [n])⟩
  | .rule selector nodes location, h => by
    rw [Node.expand, expandAll_of_final ho nodes h.of_rule, clientRules_rule]
  | .atRule name params none location, h => by
    let r : AtRule := ⟨name, params, none, location⟩
    obtain ⟨hown, -⟩ := AllFinal.of_atRule (r := r) h
    have hrules : clientRules o [r.node] = [] ++ if r.name = o.atRuleName then [r] else [] :=
      clientRules_atRule r
    show r.expandNamed o = ⟨[r.node], unsupported (clientRules o [r.node])⟩
    rw [expandNamed_of_final ho hown, hrules, List.nil_append]
  | .atRule name params (some nodes) location, h => by
    let r : AtRule := ⟨name, params, some nodes, location⟩
    obtain ⟨hown, hblock⟩ := AllFinal.of_atRule (r := r) h
    have hin : expandAll o nodes = ⟨nodes, unsupported (clientRules o nodes)⟩ :=
      expandAll_of_final ho nodes hblock
    have hrules : clientRules o [r.node] =
        clientRules o nodes ++ if r.name = o.atRuleName then [r] else [] :=
      clientRules_atRule r
    rw [Node.expand, hin]
    show Expansion.mk (r.expandNamed o).nodes
        (unsupported (clientRules o nodes) ++ (r.expandNamed o).findings) =
      ⟨[r.node], unsupported (clientRules o [r.node])⟩
    rw [expandNamed_of_final ho hown, hrules, unsupported_append]
  | .declaration .., _ => rfl
  | .comment _, _ => rfl

theorem expandAll_of_final (ho : o.comment = false) :
    ∀ ns : List Node, AllFinal o.atRuleName ns →
      expandAll o ns = ⟨ns, unsupported (clientRules o ns)⟩
  | [], _ => rfl
  | n :: ns, h => by
    have hsplit : clientRules o (n :: ns) = clientRules o [n] ++ clientRules o ns :=
      clientRules_append [n] ns
    rw [expandAll, expand_of_final ho n h.of_cons.1, expandAll_of_final ho ns h.of_cons.2, hsplit,
      unsupported_append]
    rfl

end

/-- Without comments, a second expansion changes nothing and finds each client at-rule that is
left, the inner ones first; and the first one changes nothing exactly if each client at-rule is for
a single client, and that one is not known. -/
theorem Stylesheet.expand_fixed_iff (o : Options) (ho : o.comment = false) (s : Stylesheet) :
    (Stylesheet.expand o ⟨(s.expand o).nodes⟩).nodes = (s.expand o).nodes ∧
      (Stylesheet.expand o ⟨(s.expand o).nodes⟩).diagnostics =
        (clientRules o (s.expand o).nodes).map
          (fun r => Diagnostic.unsupportedClient r.params r.location) ∧
      ((s.expand o).nodes = s.nodes ↔ ∀ r ∈ clientRules o s.nodes, UnknownClient r.params) := by
  have hfinal : AllFinal o.atRuleName (s.expand o).nodes := allFinal_expandAll s.nodes
  have hagain : Stylesheet.expand o ⟨(s.expand o).nodes⟩ =
      ⟨(s.expand o).nodes, unsupported (clientRules o (s.expand o).nodes)⟩ :=
    expandAll_of_final ho _ hfinal
  refine ⟨by rw [hagain], ?_, ?_⟩
  · rw [hagain, Expansion.diagnostics, unsupported, List.map_map]
    rfl
  · rw [← allFinal_iff_clientRules]
    constructor
    · intro hsame
      -- What drops, copies or hoists nodes cannot cancel out: the result is final.
      rw [← hsame]
      exact hfinal
    · intro h
      exact congrArg Expansion.nodes (expandAll_of_final ho s.nodes h)

/-- The chosen name is the one that a conversion gives, so that the second expansion finds the
media at-rule that the first one made. -/
theorem expand_fixed_media :
    let o : Options := { atRuleName := "media" }
    let s : Stylesheet :=
      ⟨[.atRule "media" "yahoo" (some [.atRule "media" "foo" none ⟨2, 0⟩]) ⟨1, 0⟩]⟩
    o.comment = false ∧
      (Stylesheet.expand o ⟨(s.expand o).nodes⟩).nodes =
        [.atRule "media" "screen yahoo" (some [.atRule "media" "foo" none ⟨2, 0⟩]) ⟨1, 0⟩] ∧
      (Stylesheet.expand o ⟨(s.expand o).nodes⟩).diagnostics =
        [.unsupportedClient "foo" ⟨2, 0⟩, .unsupportedClient "screen yahoo" ⟨1, 0⟩] := by
  intro o s
  obtain ⟨hnodes, hdiagnostics, -⟩ := Stylesheet.expand_fixed_iff o rfl s
  refine ⟨rfl, hnodes.trans ?_, hdiagnostics.trans ?_⟩
  · cbv
  · cbv

end MailCss
