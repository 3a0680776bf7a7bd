import MailCss.Selector.List

/-!
# Written order and match order

A list of components is a compound, or a compound, a combinator and another such list; so it can
be taken apart from the left and from the right (`compound_induction` and
`compound_induction_right`). Going to match order takes the first compound and its combinator to
the other end, and going back brings them to the front again, also where compounds are empty.

Main statement: `chains_ofChains_inverse`.
-/

namespace MailCss

/-- Components of one compound: no combinator is among them. -/
def Chain.IsCompound (c : Chain) : Prop := ∀ x ∈ c, x.isCombinator = false

theorem Component.eq_combinator_of_isCombinator {c : Component} (h : c.isCombinator = true) :
    ∃ k, c = .combinator k := by
  cases c <;> first | exact ⟨_, rfl⟩ | cases h

theorem Component.combinator?_eq_none {c : Component} (h : c.isCombinator = false) :
    c.combinator? = none := by
  cases c <;> first | rfl | cases h

namespace Chain

/-- A property of all chains, by their first compound. -/
theorem compound_induction {p : Chain → Prop} (compound : ∀ c, IsCompound c → p c)
    (combinator : ∀ c k r, IsCompound c → p r → p (c ++ .combinator k :: r)) (chain : Chain) :
    p chain := by
  obtain ⟨c, r, hchain, hc, hr⟩ : ∃ c r, chain = c ++ r ∧ IsCompound c ∧
      ∀ x ∈ r.head?, x.isCombinator = true := by
    refine ⟨chain.takeWhile (!·.isCombinator), chain.dropWhile (!·.isCombinator),
      List.takeWhile_append_dropWhile.symm, ?_, ?_⟩
    · intro x hx
      have hall := List.all_takeWhile (p := (!·.isCombinator)) (l := chain)
      simpa using List.all_eq_true.1 hall x hx
    · intro x hx
      have hhead := List.head?_dropWhile_not (!·.isCombinator) chain
      rw [Option.mem_def.1 hx] at hhead
      simpa using hhead
  cases r with
  | nil =>
    rw [hchain, List.append_nil]
    exact compound c hc
  | cons x r =>
    obtain ⟨k, rfl⟩ := Component.eq_combinator_of_isCombinator (hr x rfl)
    have hlen : r.length < chain.length := by
      rw [hchain, List.length_append, List.length_cons]
      omega
    rw [hchain]
    exact combinator c k r hc (compound_induction compound combinator r)
termination_by chain.length

theorem IsCompound.reverse {c : Chain} (h : IsCompound c) : IsCompound c.reverse := by
  intro x hx
  exact h x (List.mem_reverse.1 hx)

/-- A property of all lists of components, by their last compound. -/
theorem compound_induction_right {p : List Component → Prop} (compound : ∀ c, IsCompound c → p c)
    (combinator : ∀ c k r, IsCompound c → p r → p (r ++ .combinator k :: c))
    (raw : List Component) : p raw := by
  have hreverse : p raw.reverse.reverse := by
    apply compound_induction (p := fun l => p l.reverse)
    · intro c hc
      exact compound _ hc.reverse
    · intro c k r hc hr
      simpa using combinator c.reverse k r.reverse hc.reverse hr
  rwa [List.reverse_reverse] at hreverse

/-! ## To match order -/

theorem toMatchOrderFrom_append {c : Chain} (hc : IsCompound c) (current behind r : Chain) :
    toMatchOrderFrom current behind (c ++ r) = toMatchOrderFrom (current ++ c) behind r := by
  induction c generalizing current with
  | nil => simp
  | cons x c ih =>
    have hx : x.isCombinator = false := hc x List.mem_cons_self
    rw [List.cons_append, toMatchOrderFrom, hx, if_neg Bool.false_ne_true,
      ih fun y hy => hc y (List.mem_cons_of_mem _ hy)]
    simp

/-- What is read before stays behind everything that is read after it. -/
theorem toMatchOrderFrom_behind (current behind chain : Chain) :
    toMatchOrderFrom current behind chain = toMatchOrderFrom current [] chain ++ behind := by
  induction chain generalizing current behind with
  | nil => simp [toMatchOrderFrom]
  | cons x r ih =>
    rw [toMatchOrderFrom, toMatchOrderFrom]
    split
    · rw [ih, ih [] (x :: (current ++ []))]
      simp
    · exact ih _ _

/-- A compound is its own match order. -/
theorem toMatchOrder_of_isCompound {c : Chain} (hc : IsCompound c) : toMatchOrder c = c := by
  have happend := toMatchOrderFrom_append hc [] [] []
  rw [List.append_nil] at happend
  rw [toMatchOrder, happend]
  simp [toMatchOrderFrom]

/-- In match order, the first compound comes last, with its combinator in front of it. -/
theorem toMatchOrder_append_combinator {c : Chain} (hc : IsCompound c) (k : Combinator)
    (r : Chain) : toMatchOrder (c ++ .combinator k :: r) = toMatchOrder r ++ .combinator k :: c := by
  rw [toMatchOrder, toMatchOrderFrom_append hc, toMatchOrderFrom]
  have hk : (Component.combinator k).isCombinator = true := rfl
  rw [hk, if_pos rfl, toMatchOrderFrom_behind]
  simp [toMatchOrder]

end Chain

/-! ## Back to written order -/

open Chain

section By

variable {α : Type} {f : α → Component}

theorem compoundsBy_ne_nil (f : α → Component) (raw : List α) : compoundsBy f raw ≠ [] := by
  rw [compoundsBy, ne_eq, List.reverse_eq_nil_iff]
  exact Sequence.splitWhere_ne_nil _ raw

theorem compoundsBy_of_isCompound {c : List α} (hc : ∀ x ∈ c, (f x).isCombinator = false) :
    compoundsBy f c = [c] := by
  have hparts : Sequence.splitWhere (fun x => (f x).isCombinator) c = [c] :=
    Sequence.splitWhere_eq_singleton hc
  rw [compoundsBy, hparts]
  rfl

theorem combinatorsBy_of_isCompound {c : List α} (hc : ∀ x ∈ c, (f x).isCombinator = false) :
    combinatorsBy f c = [] := by
  rw [combinatorsBy, List.filterMap_eq_nil_iff]
  intro x hx
  exact Component.combinator?_eq_none (hc x (List.mem_reverse.1 hx))

/-- The compound at the end of match order is the first one in written order. -/
theorem compoundsBy_append {c : List α} (hc : ∀ x ∈ c, (f x).isCombinator = false) {y : α}
    (hy : (f y).isCombinator = true) (raw : List α) :
    compoundsBy f (raw ++ y :: c) = c :: compoundsBy f raw := by
  have hparts : Sequence.splitWhere (fun x => (f x).isCombinator) c = [c] :=
    Sequence.splitWhere_eq_singleton hc
  rw [compoundsBy, Sequence.splitWhere_append (x := y) hy, hparts]
  simp [compoundsBy]

theorem combinatorsBy_append {c : List α} (hc : ∀ x ∈ c, (f x).isCombinator = false) {y : α}
    {k : Combinator} (hy : (f y).combinator? = some k) (raw : List α) :
    combinatorsBy f (raw ++ y :: c) = k :: combinatorsBy f raw := by
  have hnone := combinatorsBy_of_isCompound hc
  rw [combinatorsBy] at hnone
  rw [combinatorsBy, List.reverse_append, List.reverse_cons, List.filterMap_append,
    List.filterMap_append, hnone]
  simp [combinatorsBy, hy]

end By

theorem chainOf_of_isCompound {c : List Component} (hc : IsCompound c) : chainOf c = c := by
  rw [chainOf, compoundsBy_of_isCompound (f := id) hc]
  simp [joinCompounds]

/-- In written order, the last compound comes first, with its combinator behind it. -/
theorem chainOf_append_combinator {c : List Component} (hc : IsCompound c) (k : Combinator)
    (raw : List Component) :
    chainOf (raw ++ .combinator k :: c) = c ++ .combinator k :: chainOf raw := by
  obtain ⟨d, ds, hraw⟩ := List.exists_cons_of_ne_nil (compoundsBy_ne_nil id raw)
  rw [chainOf, compoundsBy_append (f := id) hc (y := .combinator k) rfl,
    combinatorsBy_append (f := id) hc (y := .combinator k) rfl, chainOf, hraw]
  rfl

/-- A chain comes back from match order. -/
theorem chainOf_toMatchOrder (chain : Chain) : chainOf chain.toMatchOrder = chain := by
  induction chain using compound_induction with
  | compound c hc => rw [toMatchOrder_of_isCompound hc, chainOf_of_isCompound hc]
  | combinator c k r hc ih =>
    rw [toMatchOrder_append_combinator hc, chainOf_append_combinator hc, ih]

/-- A list in match order comes back from written order. -/
theorem toMatchOrder_chainOf (raw : List Component) : (chainOf raw).toMatchOrder = raw := by
  induction raw using compound_induction_right with
  | compound c hc => rw [chainOf_of_isCompound hc, toMatchOrder_of_isCompound hc]
  | combinator c k r hc ih =>
    rw [chainOf_append_combinator hc, toMatchOrder_append_combinator hc, ih]

/-! ## Selector lists -/

namespace SelectorList

/-- Chains that are put into a selector list come out of it. -/
theorem chains_ofChains (cs : List Chain) : (ofChains cs).chains = cs := by
  have hchain : Selector.chain ∘ Selector.ofChain = id := by
    funext c
    exact chainOf_toMatchOrder c
  rw [chains, ofChains, List.map_map, hchain, List.map_id]

/-- A selector list is put together again from its chains. -/
theorem ofChains_chains (l : SelectorList) : ofChains l.chains = l := by
  have hselector : Selector.ofChain ∘ Selector.chain = id := by
    funext s
    show Selector.mk (chainOf s.matchOrder).toMatchOrder = s
    rw [toMatchOrder_chainOf]
  rw [chains, ofChains, List.map_map, hselector, List.map_id]

/-- Taking selector lists apart into chains and putting them together from chains undo each other:
any chains come out as they were put in, as many as there are; any selector list comes back with
the same components in match order; and so what a text holds is written as without taking it
apart. -/
theorem chains_ofChains_inverse :
    (∀ cs : List Chain, (ofChains cs).chains = cs ∧
      (ofChains cs).selectors.length = cs.length) ∧
    (∀ l : SelectorList, (ofChains l.chains).selectors.map Selector.matchOrder =
      l.selectors.map Selector.matchOrder) ∧
    ∀ source : String, (parse source).map (fun l => (ofChains l.chains).print) =
      (parse source).map print := by
  refine ⟨?_, ?_, ?_⟩
  · intro cs
    refine ⟨chains_ofChains cs, ?_⟩
    rw [ofChains, List.length_map]
  · intro l
    rw [ofChains_chains]
  · intro source
    simp only [ofChains_chains]

end SelectorList

end MailCss
