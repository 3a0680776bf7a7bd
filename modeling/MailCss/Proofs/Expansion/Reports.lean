import MailCss.Proofs.Expansion.Conversion
import MailCss.Proofs.Expansion.Fixpoints

/-!
# What is reported about client lists

A client at-rule is reported on for each name in its list that is no client, and for a list without
names. Expansion visits an at-rule once, after those in its block, however often the at-rules around
it copy that block and even where they drop it. So these reports are, in this order, one for each
thing to report about an at-rule of the source. What else is reported is about selectors.

Main statement: `Stylesheet.expand_reports`.
-/

namespace MailCss

open Text (Location)
open Node

/-- Whether a diagnostic is about a client list: it is no warning, or points to no text. -/
def Diagnostic.isAboutList (d : Diagnostic) : Bool :=
  d.severity = .information || d.labels.any (·.text = none)

/-- What there is to report about the client list of an at-rule. -/
def AtRule.listReports (r : AtRule) : List Diagnostic :=
  match splitClients r.params with
  | [] => [.emptyClientList r.name r.location]
  | names => (names.filter fun name => Client.ofName? name = none).map
      (Diagnostic.unsupportedClient · r.location)

namespace Expansion

/-- What an expansion reports about client lists. -/
def listReports (e : Expansion) : List Diagnostic := e.diagnostics.filter Diagnostic.isAboutList

@[simp] theorem listReports_append (a b : Expansion) :
    (a ++ b).listReports = a.listReports ++ b.listReports := by
  simp [listReports, diagnostics]

/-- The nodes of an expansion do not matter to its reports. -/
theorem listReports_mk (ns ks : List Node) (fs gs : List Finding) :
    listReports ⟨ns, fs ++ gs⟩ = listReports ⟨ks, fs⟩ ++ listReports ⟨ks, gs⟩ := by
  simp [listReports, diagnostics]

end Expansion

/-- A selector that cannot be adapted is reported as a warning that points to the selector. -/
theorem OuterRule.isAboutList_failure? {f : String → Except AdaptError String} {x : OuterRule}
    {d : Diagnostic} (h : x.failure? f = some d) : d.isAboutList = false := by
  rw [failure?] at h
  split at h
  · cases h
  · cases h
    rfl

theorem listReports_adaptAll (f : String → Except AdaptError String) (ns : List Node) :
    (adaptAll f ns).listReports = [] := by
  obtain ⟨-, -, hfindings⟩ := adaptAll_views f ns
  rw [Expansion.listReports, Expansion.diagnostics, hfindings, List.filter_eq_nil_iff]
  intro d hd
  obtain ⟨x, -, hx⟩ := List.mem_filterMap.1 hd
  rw [OuterRule.isAboutList_failure? hx]
  exact Bool.false_ne_true

theorem listReports_convert (c : Client) (bodyClass : String) (r : AtRule) :
    (c.convert bodyClass r).listReports = [] := by
  simp only [Client.convert]
  split
  · rfl
  · exact listReports_adaptAll _ _
  · exact listReports_adaptAll _ _

variable {o : Options}

/-- The copies of an at-rule are reported on where their client is not known. -/
theorem listReports_copiesFor (r : AtRule) (names : List String) :
    (r.copiesFor o names).listReports =
      (names.filter fun name => Client.ofName? name = none).map
        (Diagnostic.unsupportedClient · r.location) := by
  induction names with
  | nil => rfl
  | cons name names ih =>
    have hcomment (ns : List Node) : Expansion.listReports ⟨ns, []⟩ = [] := rfl
    rw [AtRule.copiesFor, Expansion.listReports_append, ih]
    simp only [AtRule.copyFor, Expansion.listReports_append, hcomment, List.nil_append]
    cases hclient : Client.ofName? name with
    | none =>
      rw [List.filter_cons_of_pos (by simpa using hclient)]
      rfl
    | some c =>
      rw [List.filter_cons_of_neg (by simp [hclient]), listReports_convert, List.nil_append]

/-- A client at-rule is reported on for its list, whatever its block has become. -/
theorem listReports_expandNamed (r : AtRule) :
    (r.expandNamed o).listReports = if r.name = o.atRuleName then r.listReports else [] := by
  rw [AtRule.expandNamed]
  split
  · rw [AtRule.expand, AtRule.listReports]
    cases splitClients r.params with
    | nil => rfl
    | cons name names => exact listReports_copiesFor r _
  · rfl

mutual

/-- Expanding a node reports on the lists of the client at-rules in it and then on its own. -/
theorem listReports_expand :
    ∀ n : Node, (n.expand o).listReports = (clientRules o [n]).flatMap AtRule.listReports
  | .rule selector nodes location => by
    rw [clientRules_rule, ← listReports_expandAll nodes]
    rfl
  | .atRule name params none location => by
    let r : AtRule := ⟨name, params, none, location⟩
    have hrules : clientRules o [r.node] = [] ++ if r.name = o.atRuleName then [r] else [] :=
      clientRules_atRule r
    show (r.expandNamed o).listReports = (clientRules o [r.node]).flatMap AtRule.listReports
    rw [listReports_expandNamed, hrules]
    split <;> simp
  | .atRule name params (some nodes) location => by
    let r : AtRule := ⟨name, params, some nodes, location⟩
    let r' : AtRule := ⟨name, params, some (expandAll o nodes).nodes, location⟩
    have hrules : clientRules o [r.node] =
        clientRules o nodes ++ if r.name = o.atRuleName then [r] else [] :=
      clientRules_atRule r
    -- The block is expanded before the at-rule, whose list stays as it is.
    have hown : (r'.expandNamed o).listReports =
        if r.name = o.atRuleName then r.listReports else [] :=
      listReports_expandNamed r'
    have hsplit : (Node.expand o (.atRule name params (some nodes) location)).listReports =
        (expandAll o nodes).listReports ++ (r'.expandNamed o).listReports :=
      Expansion.listReports_mk (r'.expandNamed o).nodes [] _ _
    show (Node.expand o (.atRule name params (some nodes) location)).listReports =
      (clientRules o [r.node]).flatMap AtRule.listReports
    rw [hsplit, listReports_expandAll nodes, hown, hrules, List.flatMap_append]
    split <;> simp
  | .declaration .. => rfl
  | .comment _ => rfl

theorem listReports_expandAll :
    ∀ ns : List Node, (expandAll o ns).listReports =
      (clientRules o ns).flatMap AtRule.listReports
  | [] => rfl
  | n :: ns => by
    have hsplit : clientRules o (n :: ns) = clientRules o [n] ++ clientRules o ns :=
      clientRules_append [n] ns
    rw [expandAll, Expansion.listReports_append, listReports_expand n, listReports_expandAll ns,
      hsplit, List.flatMap_append]

end

/-- The diagnostics that are no warnings or point to no text are those about the client lists of the
source: one for each name in a list that is no client, and one for each list without names, where an
at-rule comes after those in its block. -/
theorem Stylesheet.expand_reports (o : Options) (s : Stylesheet) :
    (s.expand o).diagnostics.filter Diagnostic.isAboutList =
      (clientRules o s.nodes).flatMap AtRule.listReports :=
  listReports_expandAll s.nodes

end MailCss
