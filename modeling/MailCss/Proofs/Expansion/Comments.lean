import MailCss.Proofs.Expansion.Masks
import MailCss.Proofs.Stylesheet.Descendants

/-!
# Comments for clients add comments only

All comments of an expansion are comments of the source or inserted for a name that an at-rule of the
source lists. Whether they are inserted changes nothing but comments, though they are in the blocks
that other copies are made of: without comments the expansions are the same, and so are their
findings.

Main statements: `comments_expandAll_inserts` and `expand_withComment`.
-/

namespace MailCss

open Node

/-- All comments are left out. -/
def Mask.allComments : Mask := ⟨fun _ => false, true⟩

/-- Where no selectors are left out, no findings are. -/
theorem findings_mask_allComments (e : Expansion) :
    (e.mask .allComments).findings = e.findings := by
  simp [Expansion.mask, Mask.allComments]

/-- The text of a comment. -/
def Core.commentText? : Core → Option String
  | .comment text => some text
  | _ => none

/-- The texts of the comments among nodes, at any depth. -/
def Node.comments (ns : List Node) : List String := (cores ns).filterMap Core.commentText?

theorem comments_append (ns ks : List Node) : comments (ns ++ ks) = comments ns ++ comments ks := by
  simp [comments]

theorem comments_rule (selector : String) (ns : List Node) (location : Text.Location) :
    comments [.rule selector ns location] = comments ns := by
  simp only [comments, cores, withinAll, within, List.append_nil, List.map_cons]
  rfl

theorem comments_atRule (r : AtRule) : comments [r.node] = comments (r.block.getD []) := by
  rw [comments, cores_atRule]
  rfl

theorem comments_convert (c : Client) (bodyClass : String) (r : AtRule) :
    comments (c.convert bodyClass r).nodes = comments (r.block.getD []) := by
  simp only [Client.convert]
  split
  · exact comments_atRule _
  · rw [comments, cores_adaptAll]
    rfl
  · rw [comments, cores_adaptAll]
    rfl

/-! ## What is inserted -/

/-- The text of the comment that the options put in front of the copy of `r` for a client that `r`
lists by the name `name`. -/
structure ClientComment (o : Options) (r : AtRule) (name text : String) : Prop where
  wanted : o.comment = true
  expanded : r.name = o.atRuleName
  listed : name ∈ splitClients r.params
  text : clientComment name (Client.ofName? name).isSome = .comment text

/-- A comment that is put in front of some copy of `r`. -/
def Inserts (o : Options) (r : AtRule) (text : String) : Prop :=
  ∃ name, ClientComment o r name text

variable {o : Options} {text : String}

theorem comments_copyFor_inserts {r : AtRule} {name : String} (hr : r.name = o.atRuleName)
    (hname : name ∈ splitClients r.params) (h : text ∈ comments (r.copyFor o name).nodes) :
    text ∈ comments (r.block.getD []) ∨ Inserts o r text := by
  rw [AtRule.copyFor] at h
  simp only [Expansion.nodes_append, comments_append] at h
  rcases List.mem_append.1 h with h | h
  · right
    split at h
    · rename_i hcomment
      refine ⟨name, hcomment, hr, hname, ?_⟩
      rw [clientComment] at h ⊢
      rw [List.mem_singleton.1 h]
    · cases h
  · left
    split at h
    · rwa [comments_convert] at h
    · rwa [comments_atRule] at h

theorem comments_copiesFor_inserts {r : AtRule} (hr : r.name = o.atRuleName) {names : List String}
    (hnames : names ⊆ splitClients r.params) (h : text ∈ comments (r.copiesFor o names).nodes) :
    text ∈ comments (r.block.getD []) ∨ Inserts o r text := by
  induction names with
  | nil => cases h
  | cons name names ih =>
    rw [AtRule.copiesFor, Expansion.nodes_append, comments_append] at h
    rcases List.mem_append.1 h with h | h
    · exact comments_copyFor_inserts hr (hnames List.mem_cons_self) h
    · exact ih (List.subset_of_cons_subset hnames) h

theorem comments_expandNamed_inserts {r : AtRule} (h : text ∈ comments (r.expandNamed o).nodes) :
    text ∈ comments (r.block.getD []) ∨ Inserts o r text := by
  rw [AtRule.expandNamed] at h
  split at h
  · rename_i hr
    rw [AtRule.expand] at h
    split at h
    · cases h
    · exact comments_copiesFor_inserts hr (List.Subset.refl _) h
  · rw [comments_atRule] at h
    exact .inl h

/-- What is inserted depends on the block of an at-rule in no way. -/
theorem Inserts.withBlock {r : AtRule} (h : Inserts o r text) (block : Option (List Node)) :
    Inserts o { r with block } text := by
  obtain ⟨name, hname⟩ := h
  exact ⟨name, hname.wanted, hname.expanded, hname.listed, hname.text⟩

mutual

/-- What replaces a node has its comments and those that are inserted for at-rules in it. -/
theorem comments_expand_inserts : ∀ n : Node, text ∈ comments (n.expand o).nodes →
    text ∈ comments [n] ∨ ∃ r ∈ n.atRules, Inserts o r text
  | .rule selector nodes location, h => by
    rw [Node.expand, comments_rule] at h
    rw [comments_rule, atRules]
    exact comments_expandAll_inserts nodes h
  | .atRule name params none location, h => by
    rw [Node.expand] at h
    rcases comments_expandNamed_inserts h with h | h
    · cases h
    · exact .inr ⟨_, by rw [atRules]; exact List.mem_singleton_self _, h⟩
  | .atRule name params (some nodes) location, h => by
    have hown := comments_atRule ⟨name, params, some nodes, location⟩
    rw [AtRule.node] at hown
    rw [Node.expand] at h
    rw [hown, atRules]
    rcases comments_expandNamed_inserts h with h | h
    · rcases comments_expandAll_inserts nodes h with h | ⟨r, hr, h⟩
      · exact .inl h
      · exact .inr ⟨r, List.mem_append_left _ hr, h⟩
    · exact .inr ⟨_, List.mem_append_right _ (List.mem_singleton_self _), h.withBlock _⟩
  | .declaration .., h => .inl h
  | .comment _, h => .inl h

/-- What replaces siblings has their comments and those that are inserted for at-rules in them. -/
theorem comments_expandAll_inserts : ∀ ns : List Node, text ∈ comments (expandAll o ns).nodes →
    text ∈ comments ns ∨ ∃ r ∈ atRulesAll ns, Inserts o r text
  | [], h => .inl h
  | n :: ns, h => by
    rw [expandAll, Expansion.nodes_append, comments_append] at h
    rw [← List.singleton_append, comments_append, List.singleton_append, atRulesAll]
    rcases List.mem_append.1 h with h | h
    · rcases comments_expand_inserts n h with h | ⟨r, hr, h⟩
      · exact .inl (List.mem_append_left _ h)
      · exact .inr ⟨r, List.mem_append_left _ hr, h⟩
    · rcases comments_expandAll_inserts ns h with h | ⟨r, hr, h⟩
      · exact .inl (List.mem_append_right _ h)
      · exact .inr ⟨r, List.mem_append_right _ hr, h⟩

end

/-- Where no comments for clients are written, none is inserted. -/
theorem comments_expandAll (ho : o.comment = false) (ns : List Node) :
    comments (expandAll o ns).nodes ⊆ comments ns := by
  intro text h
  rcases comments_expandAll_inserts ns h with h | ⟨r, -, name, hname⟩
  · exact h
  · have hwanted := hname.wanted
    rw [ho] at hwanted
    cases hwanted

/-- Whether comments for clients are written changes neither the diagnostics nor, without the
comments, the nodes; and where none are written, all comments are comments of the source. -/
theorem Stylesheet.expand_withComment (o : Options) (b : Bool) (s : Stylesheet) :
    (s.expand (o.withComment b)).diagnostics = (s.expand o).diagnostics ∧
      maskAll .allComments (s.expand (o.withComment b)).nodes =
        maskAll .allComments (s.expand o).nodes ∧
      comments (s.expand (o.withComment false)).nodes ⊆ comments s.nodes := by
  have hoptions : (o.withComment b).Alike .allComments o := ⟨rfl, rfl, .inl rfl⟩
  have halike : (s.expand (o.withComment b)).mask .allComments = (s.expand o).mask .allComments :=
    expandAll_congr_mask hoptions rfl
  refine ⟨?_, congrArg Expansion.nodes halike, comments_expandAll rfl s.nodes⟩
  rw [Expansion.diagnostics, Expansion.diagnostics, ← findings_mask_allComments, halike,
    findings_mask_allComments]

end MailCss
