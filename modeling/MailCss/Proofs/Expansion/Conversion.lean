import MailCss.Client
import MailCss.Proofs.Selector.Adapted

/-!
# What a conversion changes

A client with selectors of its own gets the children of its at-rule back with the selectors of some
style rules adapted, and nothing else changed. These are the *outer rules*: those that are reached
through blocks of at-rules only. Nodes are known from what is left when these selectors are taken
out of them (`blankedAll`) and from their outer rules in order (`outerRulesAll`), so that both
together say what a conversion returns.

Main statement: `Client.convert_adapts`.
-/

namespace MailCss

open Text (Location)

/-- A style rule with no style rule around it: its selector and its place in the source. -/
structure OuterRule where
  selector : String
  location : Location
  deriving DecidableEq, Repr

namespace OuterRule

/-- The rule with its selector adapted, if that can be done. -/
def adapt (f : String → Except AdaptError String) (x : OuterRule) : OuterRule :=
  { x with selector := (f x.selector).toOption.getD x.selector }

/-- The diagnostic for a rule whose selector cannot be adapted. -/
def failure? (f : String → Except AdaptError String) (x : OuterRule) : Option Diagnostic :=
  match f x.selector with
  | .ok _ => none
  | .error e => some (.ofAdaptError e x.location)

theorem severity_failure? {f : String → Except AdaptError String} {x : OuterRule} {d : Diagnostic}
    (h : x.failure? f = some d) : d.severity = .warning := by
  rw [failure?] at h
  split at h
  · cases h
  · cases h
    rfl

end OuterRule

namespace Node

mutual

/-- The outer rules of a node, in the order of the source. -/
def outerRules : Node → List OuterRule
  | .rule selector _ location => [⟨selector, location⟩]
  | .atRule _ _ (some nodes) _ => outerRulesAll nodes
  | .atRule _ _ none _ | .declaration .. | .comment _ => []

/-- The outer rules of siblings, in the order of the source. -/
def outerRulesAll : List Node → List OuterRule
  | [] => []
  | n :: ns => n.outerRules ++ outerRulesAll ns

end

mutual

/-- A node without the selectors of its outer rules. -/
def blanked : Node → Node
  | .rule _ nodes location => .rule "" nodes location
  | .atRule name params (some nodes) location =>
    .atRule name params (some (blankedAll nodes)) location
  | .atRule name params none location => .atRule name params none location
  | .declaration property value => .declaration property value
  | .comment text => .comment text

/-- Siblings without the selectors of their outer rules. -/
def blankedAll : List Node → List Node
  | [] => []
  | n :: ns => n.blanked :: blankedAll ns

end

/-! ## Nodes from their two views -/

mutual

/-- The outer rules are where they were when their selectors have been taken out. -/
theorem map_location_blanked :
    ∀ n : Node, n.blanked.outerRules.map OuterRule.location = n.outerRules.map OuterRule.location
  | .rule .. => rfl
  | .atRule _ _ (some nodes) _ => map_location_blankedAll nodes
  | .atRule _ _ none _ | .declaration .. | .comment _ => rfl

theorem map_location_blankedAll : ∀ ns : List Node,
    (outerRulesAll (blankedAll ns)).map OuterRule.location =
      (outerRulesAll ns).map OuterRule.location
  | [] => rfl
  | n :: ns => by
    simp only [blankedAll, outerRulesAll, List.map_append, map_location_blanked n,
      map_location_blankedAll ns]

end

theorem length_outerRules_of_blanked {n k : Node} (h : n.blanked = k.blanked) :
    n.outerRules.length = k.outerRules.length := by
  have hlocations := map_location_blanked n
  rw [h, map_location_blanked k] at hlocations
  simpa using (congrArg List.length hlocations).symm

mutual

/-- Nodes that are the same without the selectors of their outer rules, and have the same outer
rules, are the same. -/
theorem eq_of_blanked : ∀ {n k : Node}, n.blanked = k.blanked → n.outerRules = k.outerRules → n = k
  | .rule .., .rule .., h, hrules => by
    obtain ⟨-, rfl, rfl⟩ := rule.inj h
    obtain ⟨rfl, -⟩ := OuterRule.mk.inj (List.cons.inj hrules).1
    rfl
  | .atRule _ _ (some nodes) _, .atRule _ _ (some nodes') _, h, hrules => by
    obtain ⟨rfl, rfl, hnodes, rfl⟩ := atRule.inj h
    rw [eq_of_blankedAll (Option.some.inj hnodes) hrules]
  | .atRule _ _ none _, .atRule _ _ none _, h, _ => h
  | .declaration .., .declaration .., h, _ => h
  | .comment _, .comment _, h, _ => h

theorem eq_of_blankedAll : ∀ {ns ks : List Node}, blankedAll ns = blankedAll ks →
    outerRulesAll ns = outerRulesAll ks → ns = ks
  | [], [], _, _ => rfl
  | n :: ns, k :: ks, h, hrules => by
    obtain ⟨hhead, htail⟩ := List.cons.inj h
    -- The outer rules are cut behind those of the first node, which are as many on both sides.
    obtain ⟨hrule, hrest⟩ := List.append_inj hrules (length_outerRules_of_blanked hhead)
    rw [eq_of_blanked hhead hrule, eq_of_blankedAll htail hrest]

end

/-! ## Adapting -/

section Adapt

variable (f : String → Except AdaptError String)

mutual

/-- Adapting a node changes the selectors of its outer rules and nothing else. -/
theorem adapt_views : ∀ n : Node, (n.adapt f).1.blanked = n.blanked ∧
    (n.adapt f).1.outerRules = n.outerRules.map (OuterRule.adapt f) ∧
    (n.adapt f).2.map Finding.diagnostic = n.outerRules.filterMap (OuterRule.failure? f)
  | .rule selector nodes location => by
    cases h : f selector <;>
      simp [adapt, h, blanked, outerRules, OuterRule.adapt, OuterRule.failure?, Except.toOption,
        Finding.diagnostic]
  | .atRule name params (some nodes) location => by
    obtain ⟨hblanked, hrules, hfindings⟩ := adaptAll_views nodes
    refine ⟨?_, hrules, hfindings⟩
    simp only [adapt, blanked, hblanked]
  | .atRule _ _ none _ | .declaration .. | .comment _ => ⟨rfl, rfl, rfl⟩

theorem adaptAll_views : ∀ ns : List Node, blankedAll (adaptAll f ns).nodes = blankedAll ns ∧
    outerRulesAll (adaptAll f ns).nodes = (outerRulesAll ns).map (OuterRule.adapt f) ∧
    (adaptAll f ns).findings.map Finding.diagnostic =
      (outerRulesAll ns).filterMap (OuterRule.failure? f)
  | [] => ⟨rfl, rfl, rfl⟩
  | n :: ns => by
    obtain ⟨hblanked, hrules, hfindings⟩ := adapt_views n
    obtain ⟨hblanked', hrules', hfindings'⟩ := adaptAll_views ns
    simp [adaptAll, blankedAll, outerRulesAll, hblanked, hrules, hfindings, hblanked', hrules',
      hfindings']

end

end Adapt

end Node

open Node

/-- What comes of adapting the selectors of the outer rules of nodes by `f`: these nodes with the
selectors adapted that can be, and a warning for each of the others, in the order of the source. -/
structure Expansion.Adapts (f : String → Except AdaptError String) (ns : List Node)
    (e : Expansion) : Prop where
  nodes : ∀ ks, ks = e.nodes ↔ blankedAll ks = blankedAll ns ∧
    outerRulesAll ks = (outerRulesAll ns).map (OuterRule.adapt f)
  diagnostics : e.diagnostics = (outerRulesAll ns).filterMap (OuterRule.failure? f)
  warnings : ∀ d ∈ e.diagnostics, d.severity = .warning

theorem adapts_adaptAll (f : String → Except AdaptError String) (ns : List Node) :
    (adaptAll f ns).Adapts f ns := by
  obtain ⟨hblanked, hrules, hfindings⟩ := adaptAll_views f ns
  refine ⟨fun ks => ⟨?_, ?_⟩, hfindings, ?_⟩
  · rintro rfl
    exact ⟨hblanked, hrules⟩
  · rintro ⟨hblanked', hrules'⟩
    exact eq_of_blankedAll (hblanked'.trans hblanked.symm) (hrules'.trans hrules.symm)
  · intro d hd
    rw [Expansion.diagnostics, hfindings] at hd
    obtain ⟨x, -, hx⟩ := List.mem_filterMap.1 hd
    exact OuterRule.severity_failure? hx

/-- A media client renames its at-rule, keeps its block as it is and reports nothing. Any other
client gets the children of its at-rule with the selectors of the outer rules adapted and nothing
else changed, and reports those that cannot be adapted; where what it combines selectors with is a
selector list, those are the selectors that are none. -/
theorem Client.convert_adapts (c : Client) (bodyClass : String) (r : AtRule) :
    match c.conversion bodyClass with
    | .media query => c.convert bodyClass r = ⟨[.atRule "media" query r.block r.location], []⟩
    | .retargetBody replacement =>
      (c.convert bodyClass r).Adapts (Adapt.retargetBody bodyClass replacement)
        (r.block.getD []) ∧
      ((SelectorList.parse replacement).isOk = true → ∀ s,
        (Adapt.retargetBody bodyClass replacement s).isOk = (SelectorList.parse s).isOk)
    | .wrap ancestor =>
      (c.convert bodyClass r).Adapts (Adapt.addWrapper ancestor) (r.block.getD []) ∧
      ((SelectorList.parse ancestor).isOk = true → ∀ s,
        (Adapt.addWrapper ancestor s).isOk = (SelectorList.parse s).isOk) := by
  cases c with
  | yahoo | webkit => rfl
  | aol | gmail => exact ⟨adapts_adaptAll _ _, Adapt.isOk_withFirstChain⟩
  | outlookCom | thunderbird => exact ⟨adapts_adaptAll _ _, Adapt.isOk_withFirstChain⟩

/-- Rules in a media at-rule and behind it, one of which cannot be adapted, and a rule in a rule,
which is none of the outer ones. -/
theorem convert_adapts_nested :
    let ns : List Node :=
      [.comment "a", .atRule "media" "print"
        (some [.rule ".a" [.rule "&.b" [] ⟨2, 4⟩, .declaration "color" "red"] ⟨2, 0⟩]) ⟨1, 0⟩,
        .rule ".c >" [] ⟨3, 0⟩]
    let e := Client.thunderbird.convert "body" ⟨"client", "thunderbird", some ns, ⟨0, 0⟩⟩
    outerRulesAll e.nodes = [⟨".moz-text-html .a", ⟨2, 0⟩⟩, ⟨".c >", ⟨3, 0⟩⟩] ∧
      blankedAll e.nodes = blankedAll ns ∧
      e.diagnostics.map Diagnostic.labels = [[⟨some ".c >", ⟨3, 0⟩⟩]] ∧
      (Adapt.addWrapper ".moz-text-html" ".c >").isOk = false := by
  intro ns e
  obtain ⟨hadapts, hfails⟩ := Client.convert_adapts .thunderbird "body"
    ⟨"client", "thunderbird", some ns, ⟨0, 0⟩⟩
  obtain ⟨hblanked, hrules⟩ := (hadapts.nodes e.nodes).1 rfl
  refine ⟨hrules.trans ?_, hblanked, ?_, (hfails (by decide +kernel) _).trans ?_⟩
  · decide +kernel
  · rw [hadapts.diagnostics]
    decide +kernel
  · decide +kernel

end MailCss
