import Mathlib
import MailCss.Expand
import MailCss.Proofs.Stylesheet.Descendants
import MailCss.Proofs.Text.Trim

/-!
# Expansion is complete

A node is *final* if it is no client at-rule, or one for a single client that is not known: such
an at-rule is what expansion leaves for a client that it has no conversion for. Nodes are final
at every depth once they are expanded, and this is kept by everything that a copy goes through: a
conversion renames an at-rule or adapts selectors, and neither gives a client list.

Main statement: `expand_final`.
-/

namespace MailCss

/-- Parameters that are the name of one client, and of none that is known. -/
structure UnknownClient (params : String) : Prop where
  trimmed : Text.trim params.toList = params.toList
  ne_empty : params ≠ ""
  no_comma : ',' ∉ params.toList
  unknown : Client.ofName? params = none

/-- A name in a client list is trimmed, is not empty and has no comma. -/
theorem mem_splitClients {params name : String} (h : name ∈ splitClients params) :
    Text.trim name.toList = name.toList ∧ name ≠ "" ∧ ',' ∉ name.toList := by
  obtain ⟨text, htext, hname⟩ := List.mem_filterMap.1 h
  obtain ⟨part, hpart, rfl⟩ := List.mem_map.1 htext
  split at hname
  · cases hname
  · rename_i hne
    obtain rfl : String.ofList (Text.trim part) = name := by simpa using hname
    refine ⟨by simp, ?_, ?_⟩
    · intro hempty
      exact hne (by simpa using congrArg String.toList hempty)
    · intro hcomma
      have hsep := Sequence.not_of_mem_splitWhere hpart
        (Text.mem_of_mem_trim (by simpa using hcomma))
      simp at hsep

/-- The query of a media client is no name of a known client. -/
theorem unknownClient_of_conversion {c : Client} {bodyClass query : String}
    (h : c.conversion bodyClass = .media query) : UnknownClient query := by
  cases c <;> cases h <;> exact ⟨by decide, by decide, by decide, by decide⟩

/-- A core that is no at-rule named `name`, or one for a single unknown client. -/
def Core.Final (name : String) : Core → Prop
  | .atRule n params _ _ => n = name → UnknownClient params
  | _ => True

namespace Node

/-- Siblings that are final at every depth. -/
def AllFinal (name : String) (ns : List Node) : Prop := ∀ c ∈ cores ns, c.Final name

variable {name : String}

theorem allFinal_nil : AllFinal name [] := by simp [AllFinal]

theorem allFinal_append {ns ms : List Node} :
    AllFinal name (ns ++ ms) ↔ AllFinal name ns ∧ AllFinal name ms := by
  simp only [AllFinal, cores_append, List.mem_append]
  constructor
  · intro h
    exact ⟨fun c hc => h c (.inl hc), fun c hc => h c (.inr hc)⟩
  · rintro ⟨hns, hms⟩ c (hc | hc)
    · exact hns c hc
    · exact hms c hc

/-- An at-rule is final at every depth if it is, and its block is. -/
theorem allFinal_atRule {r : AtRule} (hown : r.name = name → UnknownClient r.params)
    (hblock : AllFinal name (r.block.getD [])) : AllFinal name [r.node] := by
  intro c hc
  rw [cores_atRule] at hc
  rcases List.mem_cons.1 hc with rfl | hc
  · exact hown
  · exact hblock c hc

theorem allFinal_rule {selector : String} {ns : List Node} {location : Text.Location}
    (h : AllFinal name ns) : AllFinal name [.rule selector ns location] := by
  intro c hc
  rw [cores_cons, within, List.map_cons, cores_nil, List.append_nil] at hc
  rcases List.mem_cons.1 hc with rfl | hc
  · trivial
  · exact h c hc

/-- A node with nothing in it that is no at-rule is final. -/
theorem allFinal_declaration (property value : String) :
    AllFinal name [.declaration property value] := by
  simp [AllFinal, cores, withinAll, within, core, Core.Final]

theorem allFinal_comment (text : String) : AllFinal name [.comment text] := by
  simp [AllFinal, cores, withinAll, within, core, Core.Final]

end Node

open Node

variable {o : Options}

/-- Converting a copy of an at-rule keeps its block final. -/
theorem allFinal_convert (c : Client) (bodyClass : String) {r : AtRule} {name : String}
    (h : AllFinal name (r.block.getD [])) : AllFinal name (c.convert bodyClass r).nodes := by
  simp only [Client.convert]
  split
  · rename_i query hquery
    exact allFinal_atRule (fun _ => unknownClient_of_conversion hquery) h
  · intro c hc
    exact h c (by rwa [cores_adaptAll] at hc)
  · intro c hc
    exact h c (by rwa [cores_adaptAll] at hc)

/-- The copy for a client of the list is final if the block is. -/
theorem allFinal_copyFor {r : AtRule} {name : String}
    (hname : name ∈ splitClients r.params) (h : AllFinal o.atRuleName (r.block.getD [])) :
    AllFinal o.atRuleName (r.copyFor o name).nodes := by
  simp only [AtRule.copyFor, Expansion.nodes_append]
  refine allFinal_append.2 ⟨?_, ?_⟩
  · split
    · exact allFinal_comment _
    · exact allFinal_nil
  · split
    · exact allFinal_convert _ _ h
    · rename_i hunknown
      obtain ⟨htrim, hne, hcomma⟩ := mem_splitClients hname
      exact allFinal_atRule (fun _ => ⟨htrim, hne, hcomma, hunknown⟩) h

theorem allFinal_copiesFor {r : AtRule} {names : List String}
    (hnames : ∀ name ∈ names, name ∈ splitClients r.params)
    (h : AllFinal o.atRuleName (r.block.getD [])) :
    AllFinal o.atRuleName (r.copiesFor o names).nodes := by
  induction names with
  | nil => exact allFinal_nil
  | cons name names ih =>
    rw [AtRule.copiesFor, Expansion.nodes_append]
    refine allFinal_append.2 ⟨allFinal_copyFor (hnames name List.mem_cons_self) h, ?_⟩
    exact ih fun n hn => hnames n (List.mem_cons_of_mem _ hn)

/-- What replaces an at-rule is final if its block is. -/
theorem allFinal_expandNamed {r : AtRule} (h : AllFinal o.atRuleName (r.block.getD [])) :
    AllFinal o.atRuleName (r.expandNamed o).nodes := by
  rw [AtRule.expandNamed]
  split
  · rw [AtRule.expand]
    split
    · exact allFinal_nil
    · exact allFinal_copiesFor (fun _ hn => hn) h
  · rename_i hother
    exact allFinal_atRule (fun hname => absurd hname hother) h

mutual

/-- What replaces a node is final. -/
theorem allFinal_expand : ∀ n : Node, AllFinal o.atRuleName (n.expand o).nodes
  | .rule selector nodes location => by
    rw [Node.expand]
    exact allFinal_rule (allFinal_expandAll nodes)
  | .atRule name params none location => by
    rw [Node.expand]
    exact allFinal_expandNamed allFinal_nil
  | .atRule name params (some nodes) location => by
    rw [Node.expand]
    exact allFinal_expandNamed (allFinal_expandAll nodes)
  | .declaration property value => by
    rw [Node.expand]
    exact allFinal_declaration property value
  | .comment text => by
    rw [Node.expand]
    exact allFinal_comment text

theorem allFinal_expandAll : ∀ ns : List Node, AllFinal o.atRuleName (Node.expandAll o ns).nodes
  | [] => by
    rw [Node.expandAll]
    exact allFinal_nil
  | n :: ns => by
    rw [Node.expandAll, Expansion.nodes_append]
    exact allFinal_append.2 ⟨allFinal_expand n, allFinal_expandAll ns⟩

end

/-- After expansion, an at-rule of the chosen name at any depth is for one client, and that one is
not known. -/
theorem Stylesheet.expand_final (o : Options) (s : Stylesheet) (params : String)
    (block : Option (List Node)) (location : Text.Location)
    (h : .atRule o.atRuleName params block location ∈ withinAll (s.expand o).nodes) :
    Text.trim params.toList = params.toList ∧ params ≠ "" ∧ ',' ∉ params.toList ∧
      Client.ofName? params = none := by
  have hcore : (Node.atRule o.atRuleName params block location).core ∈ cores (s.expand o).nodes :=
    mem_cores.2 ⟨_, h, rfl⟩
  have hfinal : UnknownClient params := allFinal_expandAll s.nodes _ hcore rfl
  exact ⟨hfinal.trimmed, hfinal.ne_empty, hfinal.no_comma, hfinal.unknown⟩

/-- The chosen name is the one that a conversion gives, and a copy with an at-rule for an unknown
client in it is inside a style rule. -/
theorem expand_final_media :
    .atRule "media" "screen yahoo" (some [.atRule "media" "foo" none {}]) {} ∈
        withinAll (Stylesheet.expand { atRuleName := "media" }
          ⟨[.rule ".a" [.atRule "media" "gmail, yahoo" (some [.atRule "media" " foo" none {}]) {}]
            {}]⟩).nodes ∧
      Text.trim "screen yahoo".toList = "screen yahoo".toList ∧ "screen yahoo" ≠ "" ∧
      ',' ∉ "screen yahoo".toList ∧ Client.ofName? "screen yahoo" = none := by
  have hnodes : withinAll (Stylesheet.expand { atRuleName := "media" }
      ⟨[.rule ".a" [.atRule "media" "gmail, yahoo" (some [.atRule "media" " foo" none {}]) {}]
        {}]⟩).nodes =
      [.rule ".a" [.atRule "media" "foo" none {},
          .atRule "media" "screen yahoo" (some [.atRule "media" "foo" none {}]) {}] {},
        .atRule "media" "foo" none {},
        .atRule "media" "screen yahoo" (some [.atRule "media" "foo" none {}]) {},
        .atRule "media" "foo" none {}] := by
    cbv
  have hmem : .atRule "media" "screen yahoo" (some [.atRule "media" "foo" none {}]) {} ∈
      withinAll (Stylesheet.expand { atRuleName := "media" }
        ⟨[.rule ".a" [.atRule "media" "gmail, yahoo" (some [.atRule "media" " foo" none {}]) {}]
          {}]⟩).nodes := by
    rw [hnodes]
    exact .tail _ (.tail _ (.head _))
  exact ⟨hmem, Stylesheet.expand_final _ _ _ _ _ hmem⟩

end MailCss
