import MailCss.Expand

/-!
# Comparing expansions under a mask

Two runs of expansion are compared after something is left out of both: the selectors of the style
rules at some locations, or the comments. A *mask* says what that is.

The proof never looks at two trees at once. Whatever expansion does to nodes gives, under the mask,
the same as what it does to the masked nodes; so nodes that look alike under the mask still do so
after it.

Main statement: `expandAll_congr_mask`.
-/

namespace MailCss

open Text (Location)

/-- What is left out when style sheets are compared. -/
structure Mask where
  /-- The locations of the style rules whose selectors are left out. -/
  hides : Location → Bool
  /-- Whether comments are left out. -/
  comments : Bool

namespace Node

variable {m : Mask}

mutual

/-- What a mask leaves of a node. A selector that is left out is blank. -/
def mask (m : Mask) : Node → List Node
  | .rule selector nodes location =>
    [.rule (if m.hides location then "" else selector) (maskAll m nodes) location]
  | .atRule name params (some nodes) location =>
    [.atRule name params (some (maskAll m nodes)) location]
  | .atRule name params none location => [.atRule name params none location]
  | .declaration property value => [.declaration property value]
  | .comment text => if m.comments then [] else [.comment text]

/-- What a mask leaves of siblings. -/
def maskAll (m : Mask) : List Node → List Node
  | [] => []
  | n :: ns => mask m n ++ maskAll m ns

end

@[simp] theorem maskAll_append (ns ks : List Node) :
    maskAll m (ns ++ ks) = maskAll m ns ++ maskAll m ks := by
  induction ns with
  | nil => rfl
  | cons n ns ih => simp [maskAll, ih]

theorem maskAll_singleton (n : Node) : maskAll m [n] = mask m n := by
  simp [maskAll]

mutual

/-- Masking twice leaves what masking once leaves. -/
theorem maskAll_mask : ∀ n : Node, maskAll m (mask m n) = mask m n
  | .rule selector nodes location => by
    have hin := maskAll_maskAll nodes
    by_cases h : m.hides location <;> simp [mask, maskAll, hin, h]
  | .atRule name params (some nodes) location => by
    simp [mask, maskAll, maskAll_maskAll nodes]
  | .atRule _ _ none _ => by simp [mask, maskAll]
  | .declaration .. => by simp [mask, maskAll]
  | .comment _ => by
    by_cases h : m.comments <;> simp [mask, maskAll, h]

theorem maskAll_maskAll : ∀ ns : List Node, maskAll m (maskAll m ns) = maskAll m ns
  | [] => rfl
  | n :: ns => by rw [maskAll, maskAll_append, maskAll_mask n, maskAll_maskAll ns]

end

end Node

open Node

/-- What a mask leaves of an expansion: nothing that was found where selectors are left out. -/
def Expansion.mask (m : Mask) (e : Expansion) : Expansion :=
  ⟨maskAll m e.nodes, e.findings.filter fun f => !m.hides f.location⟩

/-- What a mask leaves of an at-rule. -/
def AtRule.mask (m : Mask) (r : AtRule) : AtRule := { r with block := r.block.map (maskAll m) }

variable {m : Mask}

theorem Expansion.mask_eq_iff {a b : Expansion} :
    a.mask m = b.mask m ↔
      maskAll m a.nodes = maskAll m b.nodes ∧
        (a.findings.filter fun f => !m.hides f.location) =
          b.findings.filter fun f => !m.hides f.location := by
  rw [Expansion.mask, Expansion.mask, Expansion.mk.injEq]

theorem Expansion.mask_append (a b : Expansion) : (a ++ b).mask m = a.mask m ++ b.mask m := by
  show Expansion.mk _ _ = Expansion.mk _ _
  simp [Expansion.mask]

theorem AtRule.mask_node (r : AtRule) : Node.mask m r.node = [(r.mask m).node] := by
  obtain ⟨name, params, _ | nodes, location⟩ := r <;> rfl

theorem AtRule.mask_mask (r : AtRule) : (r.mask m).mask m = r.mask m := by
  obtain ⟨name, params, _ | nodes, location⟩ := r
  · rfl
  · simp [AtRule.mask, maskAll_maskAll]

/-! ## Adapting selectors -/

section Adapt

variable (f : String → Except AdaptError String)

/-- Of a style rule whose selector is left out, nothing that the selector decides is left. -/
theorem mask_adapt_of_hides {location : Location} (h : m.hides location = true)
    (selector : String) (nodes : List Node) :
    (adaptAll f [.rule selector nodes location]).mask m =
      ⟨[.rule "" (maskAll m nodes) location], []⟩ := by
  simp only [adaptAll, adapt]
  split <;> simp [Expansion.mask, maskAll, Node.mask, Finding.location, h]

mutual

/-- Adapting a node and adapting what a mask leaves of it look alike under the mask. -/
theorem mask_adapt : ∀ n : Node, (adaptAll f [n]).mask m = (adaptAll f (Node.mask m n)).mask m
  | .rule selector nodes location => by
    by_cases h : m.hides location
    · rw [Node.mask, mask_adapt_of_hides f h, mask_adapt_of_hides f h, maskAll_maskAll]
    · cases hs : f selector <;>
        simp [Expansion.mask, maskAll, Node.mask, maskAll_maskAll, adaptAll, adapt, h, hs]
  | .atRule name params (some nodes) location => by
    obtain ⟨hnodes, hfindings⟩ := Expansion.mask_eq_iff.1 (mask_adaptAll nodes)
    simp [Expansion.mask, maskAll, Node.mask, adaptAll, adapt, hnodes, hfindings]
  | .atRule _ _ none _ => rfl
  | .declaration .. => rfl
  | .comment _ => by
    by_cases h : m.comments <;> simp [Expansion.mask, maskAll, Node.mask, adaptAll, adapt, h]

theorem mask_adaptAll :
    ∀ ns : List Node, (adaptAll f ns).mask m = (adaptAll f (maskAll m ns)).mask m
  | [] => rfl
  | n :: ns => by
    rw [adaptAll_cons, Expansion.mask_append, mask_adapt n, mask_adaptAll ns, maskAll,
      adaptAll_append, Expansion.mask_append]

end

end Adapt

/-! ## Expanding -/

/-- Options under which expansions look alike: they may differ in whether comments are written,
where comments are left out. -/
structure Options.Alike (m : Mask) (o o' : Options) : Prop where
  bodyClass : o.bodyClass = o'.bodyClass
  atRuleName : o.atRuleName = o'.atRuleName
  comment : m.comments = true ∨ o.comment = o'.comment

theorem Options.Alike.refl (o : Options) : Options.Alike m o o := ⟨rfl, rfl, .inr rfl⟩

theorem mask_convert (c : Client) (bodyClass : String) (r : AtRule) :
    (c.convert bodyClass r).mask m = (c.convert bodyClass (r.mask m)).mask m := by
  have hblock : (r.mask m).block.getD [] = maskAll m (r.block.getD []) := by
    cases h : r.block <;> simp [AtRule.mask, h, maskAll]
  simp only [Client.convert, hblock]
  split
  · rename_i query _
    have htwice := AtRule.mask_mask (m := m) { r with name := "media", params := query }
    simp only [Expansion.mask, maskAll_singleton, AtRule.mask_node]
    exact congrArg (fun r : AtRule => Expansion.mk [r.node] []) htwice.symm
  · exact mask_adaptAll _ _
  · exact mask_adaptAll _ _

variable {o o' : Options}

theorem mask_copyFor (ho : o.Alike m o') (r : AtRule) (name : String) :
    (r.copyFor o name).mask m = ((r.mask m).copyFor o' name).mask m := by
  have hcomment (client : Option Client) :
      maskAll m (if o.comment then [clientComment name client.isSome] else []) =
        maskAll m (if o'.comment then [clientComment name client.isSome] else []) := by
    rcases ho.comment with h | h
    · split <;> split <;> simp [maskAll, clientComment, Node.mask, h]
    · rw [h]
  simp only [AtRule.copyFor, Expansion.mask_append, ho.bodyClass]
  congr 1
  · simp [Expansion.mask, hcomment]
  · split
    · exact mask_convert _ _ _
    · have htwice := AtRule.mask_mask (m := m) { r with params := name }
      simp only [Expansion.mask, maskAll_singleton, AtRule.mask_node]
      exact congrArg (fun s : AtRule => Expansion.mk [s.node] _) htwice.symm

theorem mask_copiesFor (ho : o.Alike m o') (r : AtRule) (names : List String) :
    (r.copiesFor o names).mask m = ((r.mask m).copiesFor o' names).mask m := by
  induction names with
  | nil => rfl
  | cons name names ih =>
    rw [AtRule.copiesFor, Expansion.mask_append, mask_copyFor ho, ih, AtRule.copiesFor,
      Expansion.mask_append]

theorem mask_expandNamed (ho : o.Alike m o') (r : AtRule) :
    (r.expandNamed o).mask m = ((r.mask m).expandNamed o').mask m := by
  have hname : (r.mask m).name = r.name := rfl
  have hparams : (r.mask m).params = r.params := rfl
  simp only [AtRule.expandNamed, AtRule.expand, hname, hparams, ho.atRuleName]
  split
  · split
    · rfl
    · exact mask_copiesFor ho r _
  · simp only [Expansion.mask, maskAll_singleton, AtRule.mask_node, AtRule.mask_mask]

/-- At-rules whose blocks look alike under a mask expand to what looks alike. -/
theorem expandNamed_congr_mask (ho : o.Alike m o') {r r' : AtRule} (h : r.mask m = r'.mask m) :
    (r.expandNamed o).mask m = (r'.expandNamed o').mask m := by
  rw [mask_expandNamed ho, h, ← mask_expandNamed (Options.Alike.refl o')]

mutual

/-- Expanding a node and expanding what a mask leaves of it look alike under the mask. -/
theorem mask_expand (ho : o.Alike m o') :
    ∀ n : Node, (n.expand o).mask m = (expandAll o' (Node.mask m n)).mask m
  | .rule selector nodes location => by
    obtain ⟨hnodes, hfindings⟩ := Expansion.mask_eq_iff.1 (mask_expandAll ho nodes)
    by_cases h : m.hides location <;>
      simp [Node.mask, expandAll_singleton, Node.expand, Expansion.mask, maskAll, hnodes, hfindings,
        h]
  | .atRule name params none location => by
    rw [Node.mask, expandAll_singleton, Node.expand, Node.expand]
    exact expandNamed_congr_mask ho rfl
  | .atRule name params (some nodes) location => by
    obtain ⟨hnodes, hfindings⟩ := Expansion.mask_eq_iff.1 (mask_expandAll ho nodes)
    have hblock : AtRule.mask m ⟨name, params, some (expandAll o nodes).nodes, location⟩ =
        AtRule.mask m ⟨name, params, some (expandAll o' (maskAll m nodes)).nodes, location⟩ := by
      simp [AtRule.mask, hnodes]
    obtain ⟨hown, hfound⟩ := Expansion.mask_eq_iff.1 (expandNamed_congr_mask ho hblock)
    simp [Node.mask, expandAll_singleton, Node.expand, Expansion.mask, hfindings, hown, hfound]
  | .declaration .. => by
    rw [Node.mask, expandAll_singleton, Node.expand, Node.expand]
  | .comment _ => by
    by_cases h : m.comments <;>
      simp [Node.mask, Node.expand, Expansion.mask, expandAll, maskAll, h]

theorem mask_expandAll (ho : o.Alike m o') :
    ∀ ns : List Node, (expandAll o ns).mask m = (expandAll o' (maskAll m ns)).mask m
  | [] => rfl
  | n :: ns => by
    rw [expandAll, Expansion.mask_append, mask_expand ho n, mask_expandAll ho ns, maskAll,
      expandAll_append, Expansion.mask_append]

end

/-- Nodes that look alike under a mask expand to what looks alike under it. -/
theorem expandAll_congr_mask (ho : o.Alike m o') {ns ks : List Node}
    (h : maskAll m ns = maskAll m ks) : (expandAll o ns).mask m = (expandAll o' ks).mask m := by
  rw [mask_expandAll ho, h, ← mask_expandAll (Options.Alike.refl o')]

end MailCss
