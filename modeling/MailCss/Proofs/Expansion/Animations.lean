import MailCss.Proofs.Expansion.Conversion
import MailCss.Proofs.Selector.Keyframes
import MailCss.Proofs.Stylesheet.Spots

/-!
# What a conversion does to keyframes

A conversion goes into the block of every at-rule, whatever its name is, so that what stands in a
block of keyframes is taken for style rules. A keyframe with a name gets a selector in front of it
and animates nothing any more, without a report. A percentage is reported as a selector that cannot
be adapted. So a block with keyframes in it never comes back as it was with nothing reported.

Main statement: `Client.convert_keyframes`.
-/

namespace MailCss

open Text (Location)
open Node

/-! ## Adapting at a spot -/

/-- Whether a spot is reached through blocks of at-rules only. -/
def Spot.isOuter : Spot → Bool
  | .among .. => true
  | .inRule .. => false
  | .inAtRule _ _ _ inner _ _ => inner.isOuter

/-- A node that no style rule is around is adapted where it stands, and what is found in it comes
between what is found in front of it and behind it. -/
theorem Spot.adaptAll_fill (f : String → Except AdaptError String) {spot : Spot}
    (h : spot.isOuter = true) : ∃ (outside : Spot) (before after : List Finding), ∀ n,
      adaptAll f (spot.fill n) = ⟨outside.fill (n.adapt f).1, before ++ ((n.adapt f).2 ++ after)⟩ := by
  induction spot with
  | among front back =>
    refine ⟨.among (adaptAll f front).nodes (adaptAll f back).nodes, (adaptAll f front).findings,
      (adaptAll f back).findings, fun n => ?_⟩
    rw [fill, adaptAll_append]
    rfl
  | inRule => cases h
  | inAtRule front name params inner location back ih =>
    obtain ⟨outside, before, after, hinner⟩ := ih h
    refine ⟨.inAtRule (adaptAll f front).nodes name params outside location
      (adaptAll f back).nodes, (adaptAll f front).findings ++ before,
      after ++ (adaptAll f back).findings, fun n => ?_⟩
    have hnode : Node.adapt f (.atRule name params (some (inner.fill n)) location) =
        (.atRule name params (some (adaptAll f (inner.fill n)).nodes) location,
          (adaptAll f (inner.fill n)).findings) := rfl
    rw [fill, adaptAll_append, adaptAll, hnode, hinner]
    show Expansion.mk _ _ = Expansion.mk _ _
    simp [fill]

/-! ## Nodes that stay as they are -/

/-- A rule stays as it is and is not reported if its selector is adapted to itself. -/
theorem OuterRule.eq_self_iff {f : String → Except AdaptError String} {x : OuterRule} :
    x.adapt f = x ∧ x.failure? f = none ↔ f x.selector = .ok x.selector := by
  obtain ⟨selector, location⟩ := x
  cases h : f selector with
  | error e => simp [failure?, h]
  | ok s => simp [adapt, failure?, h, Except.toOption]

/-- Adapting leaves nodes as they are and finds nothing if it does so with their outer rules. -/
theorem Expansion.Adapts.eq_self_iff {f : String → Except AdaptError String} {ns : List Node}
    {e : Expansion} (h : e.Adapts f ns) :
    (e.nodes = ns ∧ e.diagnostics = []) ↔
      ∀ x ∈ outerRulesAll ns, f x.selector = .ok x.selector := by
  have hrules : (outerRulesAll ns).map (OuterRule.adapt f) = outerRulesAll ns ↔
      ∀ x ∈ outerRulesAll ns, x.adapt f = x := by
    have hid := List.map_eq_map_iff (f := OuterRule.adapt f) (g := id) (l := outerRulesAll ns)
    rwa [List.map_id] at hid
  have hnodes : e.nodes = ns ↔ ∀ x ∈ outerRulesAll ns, x.adapt f = x := by
    rw [← hrules, eq_comm, h.nodes, eq_self, true_and, eq_comm]
  simp only [hnodes, h.diagnostics, List.filterMap_eq_nil_iff, ← OuterRule.eq_self_iff]
  exact forall₂_and.symm

/-! ## Keyframes -/

variable {c : Client} {bodyClass : String}

/-- A keyframe gets another selector where it can be adapted and is reported where it cannot. -/
theorem Client.adapt_keyframe (hc : c.hoists = true) {x : OuterRule}
    (h : selectsKeyframes x.selector = true) :
    ((x.adapt (c.adapter bodyClass)).selector ≠ x.selector ↔
      c.hasCompanion bodyClass = true ∧ hasPercentage x.selector = false) ∧
    (x.failure? (c.adapter bodyClass) = none ↔
      c.hasCompanion bodyClass = true ∧ hasPercentage x.selector = false) := by
  have hne : c.adapter bodyClass x.selector ≠ .ok x.selector := adapter_ne_self hc h
  rw [← isOk_adapter_iff hc h]
  obtain ⟨selector, location⟩ := x
  cases hx : c.adapter bodyClass selector with
  | error e => simp [OuterRule.adapt, OuterRule.failure?, hx, Except.toOption]
  | ok s =>
    rw [hx] at hne
    have hs : s ≠ selector := fun hs => hne (congrArg Except.ok hs)
    simpa [OuterRule.adapt, OuterRule.failure?, hx, Except.toOption] using hs

/-- In a client's copy of an at-rule, an at-rule that no style rule is around comes back where it was,
whatever its name is, and its block comes back with the selectors of its outer rules adapted. Where
these are keyframes, a keyframe gets another selector if it has no percentage and what the client
combines selectors with is a selector list, and it is reported otherwise. So the block comes back as
it was with nothing reported if it has no keyframes, and only then. -/
theorem Client.convert_keyframes (hc : c.hoists = true) (bodyClass : String) {spot : Spot}
    (hspot : spot.isOuter = true) :
    ∃ (outside : Spot) (before after : List Finding),
      ∀ (r : AtRule) (name params : String) (frames : List Node) (location : Location),
        r.block = some (spot.fill (.atRule name params (some frames) location)) →
        (∀ x ∈ outerRulesAll frames, selectsKeyframes x.selector = true) →
        ∃ e : Expansion, e.Adapts (c.adapter bodyClass) frames ∧
          c.convert bodyClass r =
            ⟨outside.fill (.atRule name params (some e.nodes) location),
              before ++ (e.findings ++ after)⟩ ∧
          (∀ x ∈ outerRulesAll frames,
            ((x.adapt (c.adapter bodyClass)).selector ≠ x.selector ↔
              c.hasCompanion bodyClass = true ∧ hasPercentage x.selector = false) ∧
            (x.failure? (c.adapter bodyClass) = none ↔
              c.hasCompanion bodyClass = true ∧ hasPercentage x.selector = false)) ∧
          ((e.nodes = frames ∧ e.diagnostics = []) ↔ outerRulesAll frames = []) := by
  obtain ⟨outside, before, after, hfill⟩ := Spot.adaptAll_fill (c.adapter bodyClass) hspot
  refine ⟨outside, before, after, fun r name params frames location hr hframes => ?_⟩
  have hadapts := adapts_adaptAll (c.adapter bodyClass) frames
  refine ⟨adaptAll (c.adapter bodyClass) frames, hadapts, ?_, fun x hx =>
    adapt_keyframe hc (hframes x hx), ?_⟩
  · rw [convert_of_hoists hc, hr]
    exact hfill _
  · rw [hadapts.eq_self_iff]
    constructor
    · intro hself
      by_contra hne
      obtain ⟨x, hx⟩ := List.exists_mem_of_ne_nil _ hne
      exact adapter_ne_self hc (hframes x hx) (hself x hx)
    · intro hnil
      rw [hnil]
      rintro x ⟨⟩

/-- A keyframe with a name, one with a percentage and two with names at once, in a media at-rule. -/
theorem Client.convert_keyframes_media :
    let frames : List Node := [.rule "from" [.declaration "top" "0"] ⟨1, 0⟩,
      .rule "50%" [] ⟨2, 0⟩, .rule "FROM,/**/ to" [] ⟨3, 0⟩]
    let spot : Spot := .inAtRule [.comment "a"] "media" "print" (.among [] [.rule ".a" [] ⟨5, 0⟩])
      ⟨0, 0⟩ []
    let r : AtRule := ⟨"client", "gmail",
      some (spot.fill (.atRule "-webkit-keyframes" "b" (some frames) ⟨4, 0⟩)), ⟨0, 0⟩⟩
    Client.gmail.hoists = true ∧ spot.isOuter = true ∧
      (∀ x ∈ outerRulesAll frames, selectsKeyframes x.selector = true) ∧
      ∃ (e : Expansion) (outside : Spot) (before after : List Finding),
        Client.gmail.convert "body" r =
          ⟨outside.fill (.atRule "-webkit-keyframes" "b" (some e.nodes) ⟨4, 0⟩),
            before ++ (e.findings ++ after)⟩ ∧
        outerRulesAll e.nodes =
          [⟨"u + .body from", ⟨1, 0⟩⟩, ⟨"50%", ⟨2, 0⟩⟩, ⟨"u + .body FROM, u + .body to", ⟨3, 0⟩⟩] ∧
        e.diagnostics.map Diagnostic.labels = [[⟨some "50%", ⟨2, 0⟩⟩]] ∧
        ¬ (e.nodes = frames ∧ e.diagnostics = []) := by
  intro frames spot r
  have hframes : ∀ x ∈ outerRulesAll frames, selectsKeyframes x.selector = true := by
    decide +kernel
  have hspot : spot.isOuter = true := rfl
  obtain ⟨outside, before, after, hconvert⟩ :=
    Client.convert_keyframes (c := .gmail) rfl "body" hspot
  obtain ⟨e, hadapts, he, -, hself⟩ :=
    hconvert r "-webkit-keyframes" "b" frames ⟨4, 0⟩ rfl hframes
  refine ⟨rfl, hspot, hframes, e, outside, before, after, he, ?_, ?_, ?_⟩
  · refine ((hadapts.nodes e.nodes).1 rfl).2.trans ?_
    decide +kernel
  · rw [hadapts.diagnostics]
    decide +kernel
  · rw [hself]
    decide

end MailCss
