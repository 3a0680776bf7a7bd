import MailCss.Expand

/-!
# Expansion of joined lists

Two lists can be joined in front of expansion: siblings in a row, and the clients of two lists with
a comma between them. Siblings do not see each other, so that what replaces them is what replaces
the first ones and then the others. The clients of an at-rule share its block, which is expanded
once: what is found there comes once, and what is found for the copies as if each list stood alone.

Main statement: `Stylesheet.expand_join`.
-/

namespace MailCss

open Text (Location)
open Node

/-- The clients of two lists with a comma between them are those of both. -/
theorem splitClients_append_comma (p q : String) :
    splitClients (p ++ "," ++ q) = splitClients p ++ splitClients q := by
  have htext : (p ++ "," ++ q).toList = p.toList ++ ',' :: q.toList := by simp
  have hparts := Sequence.splitWhere_append (p := (· == ',')) (x := ',') rfl p.toList q.toList
  simp only [splitClients, htext, hparts, List.map_append, List.filterMap_append]

namespace AtRule

variable {o : Options}

/-- The copies for the clients of two lists in a row. -/
theorem copiesFor_append (o : Options) (r : AtRule) (names names' : List String) :
    r.copiesFor o (names ++ names') = r.copiesFor o names ++ r.copiesFor o names' := by
  induction names with
  | nil => rfl
  | cons name names ih =>
    rw [List.cons_append, copiesFor, ih, copiesFor, Expansion.append_assoc]

/-- The parameters of a client at-rule matter to its copies only as the list of its clients. -/
theorem copiesFor_params (o : Options) (r : AtRule) (params : String) (names : List String) :
    { r with params }.copiesFor o names = r.copiesFor o names := by
  induction names with
  | nil => rfl
  | cons name names ih =>
    rw [copiesFor, copiesFor, ih]
    rfl

theorem expand_of_splitClients_ne_nil {r : AtRule} (h : splitClients r.params ≠ []) :
    r.expand o = r.copiesFor o (splitClients r.params) := by
  rw [expand]
  split
  · rename_i hnil
    exact absurd hnil h
  · rfl

end AtRule

/-- A client at-rule is replaced by the copies for its clients, behind what is found in its block. -/
theorem expand_clientAtRule {o : Options} {params : String} (h : splitClients params ≠ [])
    (block : Option (List Node)) (location : Location) :
    let inner := expandAll o (block.getD [])
    let copies := AtRule.copiesFor o ⟨o.atRuleName, params, block.map fun _ => inner.nodes, location⟩
      (splitClients params)
    Node.expand o (.atRule o.atRuleName params block location) =
      ⟨copies.nodes, inner.findings ++ copies.findings⟩ := by
  intro inner copies
  have hnamed (b : Option (List Node)) :
      AtRule.expandNamed o ⟨o.atRuleName, params, b, location⟩ =
        AtRule.copiesFor o ⟨o.atRuleName, params, b, location⟩ (splitClients params) := by
    have hexpand := AtRule.expand_of_splitClients_ne_nil (o := o)
      (r := ⟨o.atRuleName, params, b, location⟩) h
    rw [AtRule.expandNamed, if_pos rfl, hexpand]
  cases block with
  | none =>
    rw [Node.expand, hnamed]
    rfl
  | some nodes =>
    rw [Node.expand, hnamed]
    rfl

/-- Siblings in a row are replaced by what replaces the first of them and then by what replaces the
others, with what is found in the same order. An at-rule for the clients of two lists, each of which
names some, is replaced by what replaces the at-rule for the first list and then by what replaces
the one for the second; what is found in the block is found once, in front of what is found for the
first list and then for the second. -/
theorem Stylesheet.expand_join (o : Options) :
    (∀ ns ks : List Node,
      (Stylesheet.expand o ⟨ns ++ ks⟩).nodes =
        (Stylesheet.expand o ⟨ns⟩).nodes ++ (Stylesheet.expand o ⟨ks⟩).nodes ∧
      (Stylesheet.expand o ⟨ns ++ ks⟩).diagnostics =
        (Stylesheet.expand o ⟨ns⟩).diagnostics ++ (Stylesheet.expand o ⟨ks⟩).diagnostics) ∧
    ∀ (p q : String) (block : Option (List Node)) (location : Location),
      splitClients p ≠ [] → splitClients q ≠ [] →
      let run (params : String) : Expansion :=
        Stylesheet.expand o ⟨[.atRule o.atRuleName params block location]⟩
      let inner := (Stylesheet.expand o ⟨block.getD []⟩).diagnostics
      (run (p ++ "," ++ q)).nodes = (run p).nodes ++ (run q).nodes ∧
      ∃ ds es, (run p).diagnostics = inner ++ ds ∧ (run q).diagnostics = inner ++ es ∧
        (run (p ++ "," ++ q)).diagnostics = inner ++ (ds ++ es) := by
  constructor
  · intro ns ks
    have happend : Stylesheet.expand o ⟨ns ++ ks⟩ =
        Stylesheet.expand o ⟨ns⟩ ++ Stylesheet.expand o ⟨ks⟩ := expandAll_append o ns ks
    rw [happend]
    exact ⟨rfl, List.map_append⟩
  · intro p q block location hp hq run inner
    have hpq : splitClients (p ++ "," ++ q) ≠ [] := by
      rw [splitClients_append_comma]
      simp [hp]
    -- Every run makes the copies of one at-rule, whose parameters are those of the first list.
    let r : AtRule :=
      ⟨o.atRuleName, p, block.map fun _ => (expandAll o (block.getD [])).nodes, location⟩
    have hrun {params : String} (h : splitClients params ≠ []) :
        run params = ⟨(r.copiesFor o (splitClients params)).nodes,
          (expandAll o (block.getD [])).findings ++
            (r.copiesFor o (splitClients params)).findings⟩ := by
      have hcopies := AtRule.copiesFor_params o r params (splitClients params)
      show expandAll o [.atRule o.atRuleName params block location] = _
      rw [expandAll_singleton, expand_clientAtRule h, ← hcopies]
    have hcopies : r.copiesFor o (splitClients (p ++ "," ++ q)) =
        r.copiesFor o (splitClients p) ++ r.copiesFor o (splitClients q) := by
      rw [splitClients_append_comma, AtRule.copiesFor_append]
    refine ⟨?_, (r.copiesFor o (splitClients p)).diagnostics,
      (r.copiesFor o (splitClients q)).diagnostics, ?_, ?_, ?_⟩
    · rw [hrun hpq, hrun hp, hrun hq, hcopies]
      rfl
    · rw [hrun hp]
      exact List.map_append
    · rw [hrun hq]
      exact List.map_append
    · rw [hrun hpq, hcopies]
      simp only [Expansion.diagnostics, Expansion.findings_append, List.map_append]
      rfl

/-- What is found in the block, a selector that the first list has to adapt and cannot, and a name in
the second list that is no client. -/
theorem expand_join_nested :
    let block : List Node := [.atRule "client" "foo" none ⟨2, 0⟩, .rule ".a >" [] ⟨3, 0⟩]
    let run (params : String) : Expansion :=
      Stylesheet.expand {} ⟨[.atRule "client" params (some block) ⟨1, 0⟩]⟩
    splitClients "gmail," ≠ [] ∧ splitClients " bar" ≠ [] ∧
      (run "gmail,, bar").nodes = (run "gmail,").nodes ++ (run " bar").nodes ∧
      (run "gmail,, bar").diagnostics.map Diagnostic.labels =
        [[⟨some "foo", ⟨2, 0⟩⟩], [⟨some ".a >", ⟨3, 0⟩⟩], [⟨some "bar", ⟨1, 0⟩⟩]] := by
  intro block run
  have hfirst : splitClients "gmail," ≠ [] := by decide
  have hsecond : splitClients " bar" ≠ [] := by decide
  obtain ⟨hnodes, ds, es, hds, hes, hall⟩ :=
    (Stylesheet.expand_join {}).2 "gmail," " bar" (some block) ⟨1, 0⟩ hfirst hsecond
  refine ⟨hfirst, hsecond, hnodes, ?_⟩
  have hinner : (Stylesheet.expand {} ⟨block⟩).diagnostics.map Diagnostic.labels =
      [[⟨some "foo", ⟨2, 0⟩⟩]] := by
    decide +kernel
  have hgmail : (run "gmail,").diagnostics.map Diagnostic.labels =
      [[⟨some "foo", ⟨2, 0⟩⟩], [⟨some ".a >", ⟨3, 0⟩⟩]] := by
    decide +kernel
  have hbar : (run " bar").diagnostics.map Diagnostic.labels =
      [[⟨some "foo", ⟨2, 0⟩⟩], [⟨some "bar", ⟨1, 0⟩⟩]] := by
    decide +kernel
  -- What each list adds is what is left of its own run without what is found in the block.
  have hadds {fs es : List Diagnostic} {xs : List (List Label)}
      (hfs : fs = (Stylesheet.expand {} ⟨block⟩).diagnostics ++ es)
      (h : fs.map Diagnostic.labels = [[⟨some "foo", ⟨2, 0⟩⟩]] ++ xs) :
      es.map Diagnostic.labels = xs := by
    rw [hfs, List.map_append] at h
    exact (List.append_inj h (congrArg List.length hinner)).2
  refine (congrArg (List.map Diagnostic.labels) hall).trans ?_
  rw [List.map_append, List.map_append, hadds hds hgmail, hadds hes hbar]
  exact congrArg (· ++ _) hinner

end MailCss
