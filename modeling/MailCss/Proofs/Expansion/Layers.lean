import Mathlib.Control.Monad.Basic
import MailCss.Proofs.Expansion.Targeting

/-!
# One client at-rule inside another

A client at-rule for a media client and one for a client with selectors of its own may stand
inside each other either way round. Whichever is the inner one is expanded first: either the
selectors are adapted and then their at-rule is renamed, or the at-rule is renamed and then the
selectors are adapted through it.

Main statement: `expand_layers_comm`.
-/

namespace MailCss

open Text (Location)
open Node

/-- The client at-rule for a single client. -/
def Client.rule (o : Options) (c : Client) (block : List Node) (location : Location) : Node :=
  .atRule o.atRuleName c.name (some block) location

theorem splitClients_name (c : Client) : splitClients c.name = [c.name] := by
  cases c <;> decide

/-- Without comments, the client at-rule for a single client is replaced by what the client
converts it to. -/
theorem expand_clientRule {o : Options} (ho : o.comment = false) (c : Client) (block : List Node)
    (location : Location) :
    (c.rule o block location).expand o =
      ⟨(c.convert o.bodyClass
          ⟨o.atRuleName, c.name, some (expandAll o block).nodes, location⟩).nodes,
        (expandAll o block).findings ++ (c.convert o.bodyClass
          ⟨o.atRuleName, c.name, some (expandAll o block).nodes, location⟩).findings⟩ := by
  let r : AtRule := ⟨o.atRuleName, c.name, some (expandAll o block).nodes, location⟩
  have hcopy : r.copyFor o c.name = c.convert o.bodyClass r := by
    rw [AtRule.copyFor_of_comment_eq_false ho, Client.ofName?_name]
  have hnamed : r.expandNamed o = c.convert o.bodyClass r := by
    rw [AtRule.expandNamed, if_pos rfl, AtRule.expand, splitClients_name]
    show r.copyFor o c.name ++ {} = c.convert o.bodyClass r
    rw [hcopy]
    show Expansion.mk _ _ = c.convert o.bodyClass r
    simp
  rw [Client.rule, Node.expand, hnamed]

/-- A media client keeps the at-rule. -/
theorem convert_of_hoists_eq_false {c : Client} (h : c.hoists = false) (bodyClass : String) :
    ∃ query, c.conversion bodyClass = .media query ∧
      ∀ r : AtRule, c.convert bodyClass r = ⟨[.atRule "media" query r.block r.location], []⟩ := by
  cases c with
  | yahoo | webkit => exact ⟨_, rfl, fun _ => rfl⟩
  | aol | gmail | outlookCom | thunderbird => cases h

/-- Adapting the selectors of a single at-rule adapts those in its block. -/
theorem adaptAll_atRule (f : String → Except AdaptError String) (name params : String)
    (nodes : List Node) (location : Location) :
    adaptAll f [.atRule name params (some nodes) location] =
      ⟨[.atRule name params (some (adaptAll f nodes).nodes) location],
        (adaptAll f nodes).findings⟩ := by
  simp [adaptAll, adapt]

/-- Without comments, client at-rules for a media client and for another client around the same
block give a single media at-rule, whichever is the inner one, with the same query and the same
nodes in it, and the same diagnostics in the same order. -/
theorem expand_layers_comm (o : Options) (ho : o.comment = false) (m g : Client)
    (hm : m.hoists = false) (hg : g.hoists = true) (block : List Node)
    (outer inner outer' inner' : Location) :
    let e := Stylesheet.expand o ⟨[m.rule o [g.rule o block inner] outer]⟩
    let e' := Stylesheet.expand o ⟨[g.rule o [m.rule o block inner'] outer']⟩
    let nodes := (adaptAll (g.adapter o.bodyClass) (expandAll o block).nodes).nodes
    ∃ query, m.conversion o.bodyClass = .media query ∧
      e.nodes = [.atRule "media" query (some nodes) outer] ∧
      e'.nodes = [.atRule "media" query (some nodes) inner'] ∧
      e.diagnostics = e'.diagnostics := by
  intro e e' nodes
  obtain ⟨query, hquery, hconvert⟩ := convert_of_hoists_eq_false hm o.bodyClass
  -- What both come to: the block, expanded once, and its selectors adapted once.
  let b := expandAll o block
  let a := adaptAll (g.adapter o.bodyClass) b.nodes
  have he : e = ⟨[.atRule "media" query (some nodes) outer], b.findings ++ a.findings⟩ := by
    have hin : expandAll o [g.rule o block inner] = ⟨a.nodes, b.findings ++ a.findings⟩ := by
      rw [expandAll_singleton, expand_clientRule ho, Client.convert_of_hoists hg]
      rfl
    show expandAll o [m.rule o [g.rule o block inner] outer] = _
    rw [expandAll_singleton, expand_clientRule ho, hconvert, hin, List.append_nil]
  have he' : e' = ⟨[.atRule "media" query (some nodes) inner'], b.findings ++ a.findings⟩ := by
    have hin : expandAll o [m.rule o block inner'] =
        ⟨[.atRule "media" query (some b.nodes) inner'], b.findings⟩ := by
      rw [expandAll_singleton, expand_clientRule ho, hconvert, List.append_nil]
    show expandAll o [g.rule o [m.rule o block inner'] outer'] = _
    rw [expandAll_singleton, expand_clientRule ho, Client.convert_of_hoists hg, hin]
    simp only [Option.getD_some]
    rw [adaptAll_atRule]
  refine ⟨query, hquery, ?_, ?_, ?_⟩
  · rw [he]
  · rw [he']
  · rw [he, he']
    rfl

/-- The chosen name is the one that a media client's at-rule gets; one selector in the block is
adapted, and another cannot be. -/
theorem expand_layers_comm_media :
    let o : Options := { atRuleName := "media" }
    let block : List Node := [.rule ".a" [] ⟨3, 0⟩, .rule ".b >" [] ⟨4, 0⟩]
    let e := Stylesheet.expand o ⟨[Client.yahoo.rule o [Client.gmail.rule o block ⟨2, 0⟩] ⟨1, 0⟩]⟩
    let e' := Stylesheet.expand o ⟨[Client.gmail.rule o [Client.yahoo.rule o block ⟨2, 0⟩] ⟨1, 0⟩]⟩
    o.comment = false ∧ Client.yahoo.hoists = false ∧ Client.gmail.hoists = true ∧
      e'.nodes = [.atRule "media" "screen yahoo"
        (some [.rule "u + .body .a" [] ⟨3, 0⟩, .rule ".b >" [] ⟨4, 0⟩]) ⟨2, 0⟩] ∧
      e.diagnostics = e'.diagnostics := by
  intro o block e e'
  have hgood : Client.gmail.adapter "body" ".a" = .ok "u + .body .a" := by decide +kernel
  have hbad : Client.gmail.adapter "body" ".b >" =
      .error (.invalid ".b >" "Custom(SelectorError(DanglingCombinator))" 1 5) := by
    decide +kernel
  obtain ⟨query, hquery, -, hnodes, hdiagnostics⟩ :=
    expand_layers_comm o rfl .yahoo .gmail rfl rfl block ⟨1, 0⟩ ⟨2, 0⟩ ⟨1, 0⟩ ⟨2, 0⟩
  refine ⟨rfl, rfl, rfl, hnodes.trans ?_, hdiagnostics⟩
  have hblock : (expandAll o block).nodes = block := by
    simp [block, expandAll, Node.expand]
  obtain rfl : "screen yahoo" = query := Conversion.media.inj hquery
  show [Node.atRule "media" "screen yahoo"
    (some (adaptAll (Client.gmail.adapter "body") (expandAll o block).nodes).nodes) ⟨2, 0⟩] = _
  rw [hblock]
  simp only [block, adaptAll, adapt, hgood, hbad]

end MailCss
