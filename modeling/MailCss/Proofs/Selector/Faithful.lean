import MailCss.Proofs.Selector.Arguments
import MailCss.Proofs.Selector.Formulas

/-!
# Components that are read back

A component is faithful if nothing in it is written so that it may say something else
(`Component.isLossy`): a name that needs escapes, an empty name, tokens that run together, a formula
for columns that is left open, an `:is()` whose brackets are left out in front of a type selector,
and a namespace that is left without its star. Whatever else is read as a pseudo-class or a
pseudo-element is read back, where it was read or where fewer things are ruled out. The proof goes
from the inside out: what is inside a component is smaller than it is.

Main statements: `Component.readsBack_of_isFaithful` and `Chain.isLegible_of_allFaithful`.
-/

namespace MailCss

open Css

/-! ## What may not be read back -/

/-- Whether what is written for a component may say something else, whatever is inside it. -/
def Component.isLossy : Component → Bool
  -- Names of pseudo-classes and pseudo-elements are written without escapes.
  | .pseudoClass name .none | .pseudoElement name .none => !decide (IsWord name)
  -- Nothing is written for an empty name, as in `:lang("")`.
  | .pseudoClass _ (.names ns) => decide ("" ∈ ns)
  | .pseudoClass name (.tokens ts) | .pseudoElement name (.tokens ts) => !keepsBrackets name ts
  -- The brackets of `:nth-col(1)` are not closed.
  | .nth c f => decide (f = ⟨0, 1⟩) && (c == .col || c == .lastCol)
  -- The brackets of `:is(&a)` are left out.
  | .matching .is [.nesting :: x :: s] =>
    (x.isType || x.isQualifier) && !s.any Component.isCombinator
  -- Behind a combinator, `&n|*` loses its star.
  | .matching .not list => list.any fun s => (chainOf s).strandsBehind
  | .cue _ inner => (chainOf inner).strandsBehind
  | _ => false

mutual

/-- Whether neither a component nor any inside it is written so that it may say something else. -/
def Component.isFaithful (c : Component) : Bool :=
  !c.isLossy &&
    match c with
    | .matching _ list | .nthOf _ _ list => allFaithfulLists list
    | .host inner | .slotted inner | .cue _ inner => allFaithful inner
    | _ => true

/-- Whether all components are faithful. -/
def allFaithful : List Component → Bool
  | [] => true
  | c :: cs => c.isFaithful && allFaithful cs

/-- Whether all components of lists are faithful. -/
def allFaithfulLists : List (List Component) → Bool
  | [] => true
  | s :: ss => allFaithful s && allFaithfulLists ss

end

/-- The components inside a component. -/
def Component.within : Component → List Component
  | .matching _ list | .nthOf _ _ list => list.flatten
  | .host inner | .slotted inner | .cue _ inner => inner
  | _ => []

theorem allFaithful_iff {cs : List Component} :
    allFaithful cs = true ↔ ∀ c ∈ cs, c.isFaithful = true := by
  induction cs with
  | nil => simp [allFaithful]
  | cons c cs ih => simp [allFaithful, ih]

theorem allFaithfulLists_iff {ss : List (List Component)} :
    allFaithfulLists ss = true ↔ ∀ c ∈ ss.flatten, c.isFaithful = true := by
  induction ss with
  | nil => simp [allFaithfulLists]
  | cons s ss ih =>
    rw [allFaithfulLists, Bool.and_eq_true, allFaithful_iff, ih, List.flatten_cons]
    exact List.forall_mem_append.symm

theorem Component.isFaithful_iff {c : Component} :
    c.isFaithful = true ↔ c.isLossy = false ∧ ∀ x ∈ c.within, x.isFaithful = true := by
  rw [isFaithful.eq_def, Bool.and_eq_true, Bool.not_eq_true']
  cases c <;> simp only [within, allFaithful_iff, allFaithfulLists_iff] <;> simp

theorem printedLists_eq_map (ss : List (List Component)) : printedLists ss = ss.map printedAll := by
  induction ss with
  | nil => rfl
  | cons s ss ih => rw [printedLists, ih, List.map_cons]

/-- What is inside a component is smaller than it is. -/
theorem Component.sizeOf_lt_of_mem_within {c x : Component} (hx : x ∈ c.within) :
    sizeOf x < sizeOf c := by
  have hinner {inner : List Component} (hx : x ∈ inner) : sizeOf x < sizeOf inner :=
    List.sizeOf_lt_of_mem hx
  have hlist {list : List (List Component)} (hx : x ∈ list.flatten) : sizeOf x < sizeOf list := by
    obtain ⟨s, hs, hx⟩ := List.mem_flatten.1 hx
    exact (hinner hx).trans (List.sizeOf_lt_of_mem hs)
  cases c with
  | matching m list =>
    have hlt := hlist hx
    rw [matching.sizeOf_spec]
    omega
  | nthOf k p list =>
    have hlt := hlist hx
    rw [nthOf.sizeOf_spec]
    omega
  | host inner =>
    have hlt : sizeOf x < sizeOf inner := hinner hx
    rw [host.sizeOf_spec]
    omega
  | slotted inner =>
    have hlt : sizeOf x < sizeOf inner := hinner hx
    rw [slotted.sizeOf_spec]
    omega
  | cue region inner =>
    have hlt : sizeOf x < sizeOf inner := hinner hx
    rw [cue.sizeOf_spec]
    omega
  | _ => cases hx

/-! ## Chains whose components are read back -/

/-- A pseudo-class or pseudo-element is read back where it was read, and where fewer things are
ruled out. -/
def Component.ReadsBack (c : Component) : Prop :=
  c.isPseudo = true → ∀ f g, c.Origin f → f.Eases g → c.IsLegible g

namespace Chain

section Chains

variable {f g h : Flags} {chain s y : Chain}

theorem Along.imp {p q : Flags → Component → Prop} (hp : Along p f chain)
    (himp : ∀ x ∈ chain, ∀ g, x.isPseudo = true → p g x → q g x) : Along q f chain := by
  induction chain generalizing f with
  | nil => trivial
  | cons x chain ih =>
    exact ⟨fun hx => himp x List.mem_cons_self f hx (hp.1 hx),
      ih hp.2 fun y hy => himp y (List.mem_cons_of_mem _ hy)⟩

theorem isLegible_of_readsBack (horigin : chain.Along (fun f c => c.Origin f) f)
    (hback : ∀ x ∈ chain, x.ReadsBack) : chain.IsLegible f :=
  horigin.imp fun x hx g hpseudo ho => hback x hx hpseudo g g ho (.refl g)

theorem IsTypeSelector.isPiece (hy : IsTypeSelector y) : ∀ x ∈ y, IsPiece x.text := by
  have hqualifier {q : Option Namespace} (hq : q.all Namespace.isNamed = true) :
      ∀ x ∈ q.toList.map Component.qualifier, IsPiece x.text := by
    intro x hx
    obtain ⟨n, hn, rfl⟩ := List.mem_map.1 hx
    obtain rfl := Option.mem_toList.1 hn
    exact isPiece_namespace hq
  cases hy with
  | none =>
    rintro x ⟨⟩
  | tag hq hname =>
    rintro x hx
    rcases List.mem_append.1 hx with hx | hx
    · exact hqualifier hq x hx
    · obtain rfl := List.mem_singleton.1 hx
      exact .ident (isIdent_identText hname)
  | universal hq =>
    rintro x hx
    rcases List.mem_append.1 hx with hx | hx
    · exact hqualifier hq x hx
    · obtain rfl := List.mem_singleton.1 hx
      exact .star

theorem IsRow.isPiece (hs : IsRow f s g) (hlegible : s.IsLegible f) : ∀ x ∈ s, IsPiece x.text := by
  induction hs with
  | nil =>
    rintro x ⟨⟩
  | plain hc hraised _ ih =>
    rw [IsLegible, Along, hraised, Flags.join_empty] at hlegible
    intro x hx
    rcases List.mem_cons.1 hx with rfl | hx
    · exact (Component.isLegible_of_fits hc hlegible.1).isPiece
    · exact ih hlegible.2 x hx
  | element hk hc _ _ ih =>
    rw [IsLegible, along_cons_of_not_isPseudo rfl rfl] at hlegible
    intro x hx
    rcases List.mem_cons.1 hx with rfl | hx
    · exact isPiece_combinator _
    · rcases List.mem_cons.1 hx with rfl | hx
      · exact (Component.isLegible_of_fits hc hlegible.1).isPiece
      · exact ih hlegible.2 x hx

theorem IsReadCompound.isPiece (hc : IsReadCompound f s g) (hlegible : s.IsLegible f) :
    ∀ x ∈ s, IsPiece x.text := by
  obtain ⟨hn, hy, -, hs, -⟩ := hc
  rw [IsLegible, along_head hn hy] at hlegible
  intro x hx
  rcases List.mem_append.1 hx with hx | hx
  · rcases List.mem_append.1 hx with hx | hx
    · rcases hn with rfl | rfl
      · cases hx
      · obtain rfl := List.mem_singleton.1 hx
        exact .ampersand
    · exact hy.isPiece x hx
  · exact hs.isPiece hlegible x hx

/-- The components of a chain that was read are written as pieces. -/
theorem IsRead.isPiece (hc : IsRead f chain) (hlegible : chain.IsLegible f) :
    ∀ x ∈ chain, IsPiece x.text := by
  induction hc with
  | compound hc => exact hc.isPiece hlegible
  | combinator _ hc _ _ ih =>
    rw [IsLegible, hc.along_append, along_cons_of_not_isPseudo rfl rfl] at hlegible
    intro x hx
    rcases List.mem_append.1 hx with hx | hx
    · exact hc.isPiece hlegible.1 x hx
    · rcases List.mem_cons.1 hx with rfl | hx
      · exact isPiece_combinator _
      · exact ih hlegible.2 x hx

theorem mem_toMatchOrder {x : Component} : x ∈ chain.toMatchOrder ↔ x ∈ chain := by
  induction chain using compound_induction with
  | compound c hc => rw [toMatchOrder_of_isCompound hc]
  | combinator c k r hc ih =>
    rw [toMatchOrder_append_combinator hc]
    simp only [List.mem_append, List.mem_cons, ih]
    tauto

end Chains

end Chain

/-! ## Lists inside a component -/

section Inside

variable {f : Flags} {items : List Item} {cs : List Component} {list : List (List Component)}

/-- What is read in brackets comes from a chain. -/
theorem readMatchOrder_eq_ok (hitems : SoundItems items) (h : readMatchOrder f items = .ok cs) :
    ∃ chain : Chain, cs = chain.toMatchOrder ∧ chain.IsRead f ∧
      chain.Along (fun f c => c.Origin f) f := by
  obtain ⟨chain, hchain, rfl⟩ := exists_of_map_eq_ok h
  exact ⟨chain, rfl, readSelector_eq_ok hitems hchain⟩

theorem isPiece_of_readMatchOrder (hitems : SoundItems items) (h : readMatchOrder f items = .ok cs)
    (hback : ∀ x ∈ cs, x.ReadsBack) : ∀ x ∈ cs, IsPiece x.text := by
  obtain ⟨chain, rfl, hread, horigin⟩ := readMatchOrder_eq_ok hitems h
  simp only [Chain.mem_toMatchOrder] at hback ⊢
  exact hread.isPiece (Chain.isLegible_of_readsBack horigin hback)

theorem isPiece_of_readRelative (hitems : SoundItems items) (h : readRelative f items = .ok cs)
    (hback : ∀ x ∈ cs, x.ReadsBack) : ∀ x ∈ cs, IsPiece x.text := by
  rw [readRelative] at h
  split at h
  · cases h
  · rename_i t r ht
    split at h
    · -- A combinator in front applies to the scope.
      obtain ⟨ds, hds, rfl⟩ := exists_of_map_eq_ok h
      have hr := hitems.of_suffix (behind_of_dropSkipped ht)
      intro x hx
      rcases List.mem_append.1 hx with hx | hx
      · exact isPiece_of_readMatchOrder hr hds
          (fun y hy => hback y (List.mem_append_left _ hy)) x hx
      · rcases List.mem_cons.1 hx with rfl | hx
        · exact isPiece_combinator _
        · obtain rfl := List.mem_singleton.1 hx
          have hscope : IsIdent "scope".toList := by decide
          exact .pseudo hscope
    · exact isPiece_of_readMatchOrder hitems h hback

theorem exists_of_mem_readForgiving {read : List Item → Except Failure (List Component)}
    {segs : List (List Item)} (h : cs ∈ readForgiving read segs) :
    ∃ seg ∈ segs, read seg = .ok cs := by
  obtain ⟨seg, hseg, hread⟩ := List.mem_filterMap.1 h
  refine ⟨seg, hseg, ?_⟩
  cases hr : read seg with
  | error e =>
    rw [hr] at hread
    cases hread
  | ok ds =>
    rw [hr] at hread
    cases hread
    rfl

/-- What is written for lists whose components are pieces. -/
theorem isPiece_printedLists (h : ∀ cs ∈ list, ∀ x ∈ cs, IsPiece x.text) (relative : Bool) :
    IsPiece (Printed.list relative (printedLists list)) := by
  refine Printed.isPiece_list (fun s hs p hp => ?_) relative
  rw [printedLists_eq_map] at hs
  obtain ⟨cs, hcs, rfl⟩ := List.mem_map.1 hs
  rw [printedAll_eq_map] at hp
  obtain ⟨x, hx, rfl⟩ := List.mem_map.1 hp
  exact h cs hcs x hx

/-- What is written for a list from which what cannot be read is left out. -/
theorem isPiece_readForgiving {read : List Item → Except Failure (List Component)}
    (hitems : SoundItems items)
    (hpiece : ∀ seg cs, SoundItems seg → read seg = .ok cs → (∀ x ∈ cs, x.ReadsBack) →
      ∀ x ∈ cs, IsPiece x.text)
    (hback : ∀ x ∈ (readForgiving read (segments items)).flatten, x.ReadsBack) (relative : Bool) :
    IsPiece (Printed.list relative (printedLists (readForgiving read (segments items)))) := by
  refine isPiece_printedLists (fun cs hcs => ?_) relative
  obtain ⟨seg, hseg, hread⟩ := exists_of_mem_readForgiving hcs
  exact hpiece seg cs (hitems.of_mem_segments hseg) hread fun y hy =>
    hback y (List.mem_flatten.2 ⟨cs, hcs, hy⟩)

end Inside

/-! ## Pseudo-classes that hold a formula -/

section Formulas

variable {f g : Flags} {name : String} {items : List Item} {c : Component} {k : Counted}

/-- The names under which formulas are written. -/
theorem formula_names (h : Names.formulas.lookup (Names.lower name) = some k) :
    IsCall k.formulaName ∧ isElementName false k.formulaName = false ∧
      Names.formulas.lookup (Names.lower k.formulaName) = some k ∧
      (k = .col ∨ k = .lastCol ∨ IsWord k.first ∧ isElementName false k.first = false ∧
        (structural? k.first).isSome = true) := by
  have hall : ∀ p ∈ Names.formulas, IsCall p.2.formulaName ∧
      isElementName false p.2.formulaName = false ∧
      Names.formulas.lookup (Names.lower p.2.formulaName) = some p.2 ∧
      (p.2 = .col ∨ p.2 = .lastCol ∨ IsWord p.2.first ∧ isElementName false p.2.first = false ∧
        (structural? p.2.first).isSome = true) := by decide +kernel
  obtain ⟨l, r, heq, -⟩ := List.lookup_eq_some_iff.1 h
  exact hall (Names.lower name, k) (by rw [heq]; simp)

theorem readPseudoClass_formula (h : Names.formulas.lookup (Names.lower name) = some k)
    (hafter : f.afterAny = false) (items : List Item) :
    readPseudoClass f name items = readNth f k items := by
  simp only [readPseudoClass, h, hafter, Bool.false_eq_true, if_false]

theorem endsText_parenClose (r : List Char) : AnPlusB.EndsText (')' :: r) := by
  rintro c ⟨⟩
  exact .inr rfl

/-- A formula in brackets, with what may follow it there. -/
theorem writtenSimples_formula {F : List Char → Prop} {w : List Char} {ts : List TokenTree}
    (h : Names.formulas.lookup (Names.lower name) = some k) (hafter : g.afterAny = false)
    (hw : Spells F w ts) (hF : ∀ r, F (')' :: r)) (hc : readNth g k (Item.ofTrees ts) = .ok c) :
    WrittenSimples g (':' :: k.formulaName.toList ++ inBrackets w) g := by
  obtain ⟨hcall, helement, hlookup, -⟩ := formula_names h
  exact hcall.writtenSimples_class helement hw hF
    ((readPseudoClass_formula hlookup hafter _).trans hc)

theorem isLegible_nth (h : Names.formulas.lookup (Names.lower name) = some k)
    (hafter : g.afterAny = false) {p : AnPlusB} (hlossy : (Component.nth k p).isLossy = false) :
    (Component.nth k p).IsLegible g := by
  rw [Component.isLegible_iff rfl, Component.text_nth, nthText]
  split
  · -- The formula `0n+1` has a name of its own.
    rename_i hp
    obtain ⟨-, -, -, rfl | rfl | ⟨hword, helement, hsome⟩⟩ := formula_names h
    · rw [hp] at hlossy
      cases hlossy
    · rw [hp] at hlossy
      cases hlossy
    · have hslotted := Flags.afterSlotted_of_afterAny hafter
      obtain ⟨d, hd⟩ := exists_plainPseudoClass_of_structural hslotted hafter hsome
      exact hword.writtenSimples_class helement hd
  · obtain ⟨ts, hts, hread⟩ := p.spells_text
    obtain ⟨q, hq⟩ := hread [] (by rintro t ⟨⟩)
    rw [List.append_nil] at hq
    refine writtenSimples_formula h hafter hts endsText_parenClose (c := .nth k q) ?_
    rw [readNth, hq]
    show (if k = .child ∨ k = .lastChild then _ else _) = _
    split <;> rfl

theorem isLegible_nthOf (h : Names.formulas.lookup (Names.lower name) = some k)
    (hk : k = .child ∨ k = .lastChild) (hafter : g.afterAny = false) {p : AnPlusB}
    {list : List (List Component)} (hlist : IsPiece (Printed.list true (printedLists list))) :
    (Component.nthOf k p list).IsLegible g := by
  rw [Component.isLegible_iff rfl, Component.text_nthOf]
  obtain ⟨ts, hts, hread⟩ := p.spells_text
  obtain ⟨us, hus⟩ := (IsPiece.space.append hlist).spells
  have hof : Spells EndsIdents "of".toList [identLeaf "of".toList] := spells_ident (by decide)
  have hback := spells_space.append (hof.append hus fun r _ =>
    endsIdents_cons (by decide) (by decide) _) fun r _ => by
      rintro c ⟨⟩
      decide
  have hall := hts.append hback fun r _ => by
    rintro c ⟨⟩
    exact .inl rfl
  obtain ⟨q, hq⟩ := hread (Item.ofTrees ([.leaf ⟨.whitespace " ", [' ']⟩] ++
    ([identLeaf "of".toList] ++ us))) (by
      rintro t ⟨⟩
      exact ⟨_, rfl⟩)
  rw [← Item.ofTrees_append] at hq
  have htext : p.text ++ " of ".toList ++ Printed.list true (printedLists list) =
      p.text ++ ([' '] ++ ("of".toList ++ ([' '] ++ Printed.list true (printedLists list)))) := by
    simp
  rw [htext]
  refine writtenSimples_formula h hafter hall endsRuns_parenClose
    (c := .nthOf k q (readForgivingList g.inList (Item.ofTrees us))) ?_
  rw [readNth, hq]
  exact if_pos hk

end Formulas

/-! ## Pseudo-classes that hold a list -/

/-- The name of a pseudo-class that takes a list. -/
def Matching.name : Matching → String
  | .is => "is"
  | .where => "where"
  | .not => "not"
  | .has => "has"
  | .webkitAny => "-webkit-any"
  | .mozAny => "-moz-any"

section Matchings

variable {f g : Flags} {items : List Item} {c : Component} {m : Matching}
  {list : List (List Component)}

theorem Matching.text_eq (ss : List (List Printed)) (h : m ≠ .is ∨ Printed.standsAlone ss = false) :
    m.text ss = ':' :: (m.name.toList ++ inBrackets (Printed.list (m == .has) ss)) := by
  cases m with
  | is => exact if_neg (by simpa using h)
  | _ => rfl

/-- A list in brackets. -/
theorem Matching.writtenSimples {F : List Char → Prop} {w : List Char} {ts : List TokenTree}
    (m : Matching) (hw : Spells F w ts) (hF : ∀ r, F (')' :: r))
    (hc : readMatching g m (Item.ofTrees ts) = .ok c) :
    WrittenSimples g (':' :: (m.name.toList ++ inBrackets w)) g := by
  have hnames : IsCall m.name ∧ isElementName false m.name = false ∧
      Names.formulas.lookup (Names.lower m.name) = none ∧
      Names.matching.lookup (Names.lower m.name) = some m := by
    cases m <;> decide +kernel
  obtain ⟨hcall, helement, hformulas, hmatching⟩ := hnames
  refine hcall.writtenSimples_class helement hw hF (c := c) ?_
  simp only [readPseudoClass, hformulas, hmatching, hc]

/-- A list from which what cannot be read is left out is read from any pieces. -/
theorem isLegible_forgiving (hm : m ≠ .not)
    (halone : m ≠ .is ∨ Printed.standsAlone (printedLists list) = false)
    (hlist : ∀ relative, IsPiece (Printed.list relative (printedLists list))) :
    (Component.matching m list).IsLegible g := by
  rw [Component.isLegible_iff rfl, Component.text_matching, Matching.text_eq _ halone]
  obtain ⟨ts, hts⟩ := (hlist (m == .has)).spells
  cases m with
  | not => exact absurd rfl hm
  | _ => exact Matching.writtenSimples _ hts endsRuns_parenClose rfl

/-- The list of `:not()` is read if each of its selectors is. -/
theorem isLegible_not {cs : List Chain} (hne : cs ≠ [])
    (hcs : ∀ chain ∈ cs, WrittenSelector g.inList (chain.textFrom true))
    (hpiece : IsPiece (Printed.list false (printedLists (cs.map Chain.toMatchOrder)))) :
    (Component.matching .not (cs.map Chain.toMatchOrder)).IsLegible g := by
  rw [Component.isLegible_iff rfl, Component.text_matching, Matching.text_eq _ (.inl (by simp))]
  obtain ⟨ts, hts⟩ := hpiece.spells
  obtain ⟨c, cs, rfl⟩ := List.exists_cons_of_ne_nil hne
  have htext : Printed.list false (printedLists ((c :: cs).map Chain.toMatchOrder)) =
      joinTexts ", ".toList (c.textFrom true :: cs.map (Chain.textFrom true)) := by
    rw [Printed.list, printedLists_eq_map, List.map_map, List.map_map]
    rfl
  obtain ⟨ss, hss, -⟩ := readSegments_joinTexts (f := g.inList) (c.textFrom true)
    (cs.map (Chain.textFrom true)) (fun v hv => by
      rw [← List.map_cons (f := Chain.textFrom true)] at hv
      obtain ⟨d, hd, rfl⟩ := List.mem_map.1 hv
      exact hcs d hd)
  rw [← htext, hts.ofText_eq endsRuns_nil] at hss
  refine Matching.writtenSimples .not hts endsRuns_parenClose
    (c := .matching .not ss) ?_
  rw [readMatching, hss]
  rfl

/-- Where pseudo-elements are ruled out, nothing raises flags. -/
theorem Component.Origin.raised_eq_empty (h : c.Origin f) (hf : f.noPseudoElements = true) :
    c.raised = {} := by
  cases h with
  | plainClass _ _ h => exact (plainPseudoClass_eq_ok h f).2
  | pseudoClass _ _ h => exact (readPseudoClass_eq_ok h f).2
  | plainElement _ hbarred => simp [hf] at hbarred
  | pseudoElement _ hbarred => simp [hf] at hbarred

theorem Component.fits_of_eases (he : f.Eases g) (h : c.fits f = true) : c.fits g = true := by
  cases c <;> simp_all [fits, he.afterAny]

/-- Simple selectors in a list are ones also outside of it. -/
theorem Chain.IsRow.eases {h : Flags} {s : Chain} (hs : IsRow f s h)
    (horigin : s.Along (fun f c => c.Origin f) f) (hback : ∀ x ∈ s, x.ReadsBack)
    (hf : f.noPseudoElements = true) (he : f.Eases g) : IsRow g s g ∧ s.IsLegible g := by
  induction hs with
  | nil => exact ⟨.nil, trivial⟩
  | plain hc hraised _ ih =>
    rw [Along, hraised, Flags.join_empty] at horigin
    obtain ⟨hrow, hlegible⟩ :=
      ih horigin.2 (fun x hx => hback x (List.mem_cons_of_mem _ hx)) hf he
    refine ⟨.plain (Component.fits_of_eases he hc) hraised hrow, fun hpseudo => ?_, ?_⟩
    · exact hback _ List.mem_cons_self hpseudo _ g (horigin.1 hpseudo) he
    · rwa [hraised, Flags.join_empty]
  | @element _ _ _ c _ _ _ hraised =>
    rw [along_cons_of_not_isPseudo rfl rfl] at horigin
    have hpseudo : c.isPseudo = true := by
      cases c <;> first | rfl | cases hraised
    rw [(horigin.1 hpseudo).raised_eq_empty hf] at hraised
    cases hraised

/-- A compound that is read has a head and simple selectors. -/
theorem Chain.IsRead.isReadCompound {chain : Chain} (h : chain.IsRead f) (hc : chain.IsCompound) :
    ∃ g, chain.IsReadCompound f g := by
  cases h with
  | compound h => exact ⟨_, h⟩
  | @combinator _ k =>
    have hk := hc (.combinator k) (by simp)
    cases hk

/-- What stands alone has no type selector at its head, if it is not lossy. -/
theorem eq_nil_of_standsAlone {n y r : Chain} (hn : n.IsNesting) (hy : y.IsTypeSelector)
    (halone : Printed.standsAlone [printedAll (n ++ y ++ r)] = true)
    (hlossy : (Component.matching .is [n ++ y ++ r]).isLossy = false) : y = [] := by
  have hplain : Printed.standsAlone [printedAll (n ++ y ++ r)] =
      (!(n ++ y ++ r).any Component.isCombinator &&
        !(Printed.behindNamespace false (printedAll (n ++ y ++ r))).2.head?.any
          (·.component.isType)) := by
    rw [Printed.standsAlone, printedAll_eq_map, List.any_map]
    rfl
  rw [hplain, Bool.and_eq_true] at halone
  -- A type selector at the front keeps the brackets, and one behind the nesting selector is lossy.
  rcases hn with rfl | rfl
  · cases hy with
    | none => rfl
    | @tag q => cases q <;> cases halone.2
    | @universal q => cases q <;> cases halone.2
  · have hany : r.any Component.isCombinator = false := by
      have hnone := halone.1
      simp only [List.any_append, Bool.not_eq_true', Bool.or_eq_false_iff] at hnone
      exact hnone.2
    cases hy with
    | none => rfl
    | @tag q => cases q <;> simp [Component.isLossy, Component.isType, Component.isQualifier,
        Component.isCombinator, Component.combinator?, hany] at hlossy
    | @universal q => cases q <;> simp [Component.isLossy, Component.isType, Component.isQualifier,
        Component.isCombinator, Component.combinator?, hany] at hlossy

/-- An `:is()` without its brackets. -/
theorem isLegible_is_alone {s : List Component} {seg : List Item} (hitems : SoundItems seg)
    (h : readMatchOrder f.inList seg = .ok s) (he : f.Eases g)
    (halone : Printed.standsAlone [printedAll s] = true)
    (hlossy : (Component.matching .is [s]).isLossy = false) (hback : ∀ x ∈ s, x.ReadsBack) :
    (Component.matching .is [s]).IsLegible g := by
  obtain ⟨chain, rfl, hread, horigin⟩ := readMatchOrder_eq_ok hitems h
  have hcompound : chain.IsCompound := by
    intro x hx
    rw [Printed.standsAlone, Bool.and_eq_true, Bool.not_eq_true', List.any_eq_false] at halone
    have hx' := halone.1 ⟨x, x.text⟩ (by
      rw [printedAll_eq_map]
      exact List.mem_map_of_mem (Chain.mem_toMatchOrder.2 hx))
    simpa using hx'
  rw [Chain.toMatchOrder_of_isCompound hcompound] at halone hlossy hback ⊢
  obtain ⟨_, hc⟩ := hread.isReadCompound hcompound
  obtain @⟨n, y, r, _, hn, hy, -, hr, hne⟩ := hc
  obtain rfl := eq_nil_of_standsAlone hn hy halone hlossy
  have hrow : ∃ h, Chain.IsRow f.inList (n ++ [] ++ r) h := by
    rcases hn with rfl | rfl
    · exact ⟨_, hr⟩
    · exact ⟨_, .plain rfl rfl hr⟩
  obtain ⟨_, hrow⟩ := hrow
  obtain ⟨hrow, hlegible⟩ := hrow.eases horigin hback rfl he.of_inList
  have hwritten := (hrow.written hlegible).resolve_left fun hnil => hne hnil.1
  have htext : (Component.matching .is [n ++ [] ++ r]).text = Chain.rowText (n ++ [] ++ r) := by
    rw [← Chain.textFrom_of_isUnlinked hrow.isUnlinked true]
    rw [Chain.textFrom, Chain.parts, Chain.links, Chain.toMatchOrder_of_isCompound hcompound]
    exact if_pos halone
  rwa [Component.isLegible_iff rfl, htext]

end Matchings

/-! ## Selectors in brackets -/

namespace Chain

theorem IsRow.strandsBehind_eq_false {f g : Flags} {s : Chain} (hs : IsRow f s g) :
    strandsBehind s = false := by
  have hcons {f : Flags} {c : Component} (hc : c.fits f = true) (cs : Chain) :
      strandsBehind (c :: cs) = strandsBehind cs := by
    have hcombinator := (Component.isBare_of_fits hc).2.2
    rw [strandsBehind]
    rintro k rfl
    cases hcombinator
  induction hs with
  | nil => rfl
  | plain hc _ _ ih => rw [hcons hc, ih]
  | @element _ _ _ c cs _ hc hraised _ ih =>
    have hstrands : strands (c :: cs) = false := by
      rw [strands]
      rintro _ _ ⟨⟩
      cases hraised
    rw [strandsBehind, hstrands, hcons hc, ih]
    rfl

/-- Where combinators are ruled out, no namespace is stranded. -/
theorem IsRead.strandsBehind_eq_false {f : Flags} {chain : Chain} (h : chain.IsRead f)
    (hf : f.noCombinators = true) : strandsBehind chain = false := by
  cases h with
  | compound hc =>
    obtain ⟨hn, hy, -, hs, -⟩ := hc
    rw [strandsBehind_append (isCompound_append hn.isCompound hy.isCompound)]
    exact hs.strandsBehind_eq_false
  | combinator hopen =>
    simp [Flags.isOpen, hf] at hopen

end Chain

section Brackets

variable {f g : Flags} {name : String} {items : List Item} {inner : List Component}

/-- A selector is read from what is written for it in brackets. -/
theorem exists_spells_selector (hitems : SoundItems items) (h : readMatchOrder f items = .ok inner)
    (hstrands : (chainOf inner).strandsBehind = false) (hback : ∀ x ∈ inner, x.ReadsBack) :
    ∃ ts cs, Spells EndsCompounds (Printed.selector false (printedAll inner)) ts ∧
      readMatchOrder f (Item.ofTrees ts) = .ok cs := by
  obtain ⟨chain, rfl, hread, horigin⟩ := readMatchOrder_eq_ok hitems h
  simp only [Chain.mem_toMatchOrder, chainOf_toMatchOrder] at hback hstrands
  have hwritten : WrittenSelector f (chain.textFrom true) :=
    hread.writtenSelector (Chain.isLegible_of_readsBack horigin hback) nofun hstrands
  obtain ⟨t, ts, hts, -, -, hreads⟩ := hwritten
  obtain ⟨c, hc⟩ := ReadsSelector.readSelector hreads
  exact ⟨t :: ts, c.toMatchOrder, hts, by rw [readMatchOrder, hc]; rfl⟩

theorem endsCompounds_parenClose (r : List Char) : EndsCompounds (')' :: r) :=
  endsCompounds_cons (by decide) (by decide) r

/-- No namespace is stranded in a compound. -/
theorem strandsBehind_of_inCompound (hitems : SoundItems items)
    (h : readMatchOrder f.inCompound items = .ok inner) :
    (chainOf inner).strandsBehind = false := by
  obtain ⟨chain, rfl, hread, -⟩ := readMatchOrder_eq_ok hitems h
  rw [chainOf_toMatchOrder]
  exact hread.strandsBehind_eq_false rfl

theorem isLegible_host (hitems : SoundItems items) (hafter : g.afterAny = false)
    (h : readMatchOrder g.inCompound items = .ok inner) (hback : ∀ x ∈ inner, x.ReadsBack) :
    (Component.host inner).IsLegible g := by
  obtain ⟨ts, cs, hts, hcs⟩ :=
    exists_spells_selector hitems h (strandsBehind_of_inCompound hitems h) hback
  have hcall : IsCall "host" := by decide +kernel
  have hread : readPseudoClass g "host" (Item.ofTrees ts) = .ok (.host cs) := by
    have hlower : Names.lower "host" = "host" := by decide
    have hnone : Names.formulas.lookup "host" = none ∧ Names.matching.lookup "host" = none := by
      decide
    simp only [readPseudoClass, hlower, hnone, hafter, hcs, if_true, Bool.false_eq_true, if_false]
    rfl
  rw [Component.isLegible_iff rfl, Component.text_host]
  exact hcall.writtenSimples_class (by decide) hts endsCompounds_parenClose hread

theorem isLegible_slotted (hitems : SoundItems items)
    (hbarred : (g.afterElement || g.noPseudoElements) = false) (hafter : g.afterAny = false)
    (h : readMatchOrder g.inCompound items = .ok inner) (hback : ∀ x ∈ inner, x.ReadsBack) :
    (Component.slotted inner).IsLegible g := by
  obtain ⟨ts, cs, hts, hcs⟩ :=
    exists_spells_selector hitems h (strandsBehind_of_inCompound hitems h) hback
  have hcall : IsCall "slotted" := by decide +kernel
  have hslotted := Flags.afterSlotted_of_afterAny hafter
  have hread : readPseudoElement g "slotted" (Item.ofTrees ts) =
      .ok { components := [.combinator .toSlotted, .slotted cs],
            raised := { afterSlotted := true } } := by
    have hlower : Names.lower "slotted" = "slotted" := by decide
    rw [readPseudoElement, hlower]
    show (if g.afterAny = true then _ else _) = _
    rw [hafter, if_neg Bool.false_ne_true, hcs]
    rfl
  rw [Component.IsLegible, Component.text_slotted]
  exact hcall.writtenSimples_element hbarred hslotted hts endsCompounds_parenClose hread

theorem isLegible_cue {region : Bool} (hitems : SoundItems items)
    (hbarred : (g.afterElement || g.noPseudoElements) = false) (hslotted : g.afterSlotted = false)
    (h : readMatchOrder {} items = .ok inner) (hstrands : (chainOf inner).strandsBehind = false)
    (hback : ∀ x ∈ inner, x.ReadsBack) : (Component.cue region inner).IsLegible g := by
  obtain ⟨ts, cs, hts, hcs⟩ := exists_spells_selector hitems h hstrands hback
  have hcalls : IsCall "cue" ∧ IsCall "cue-region" := by decide +kernel
  have hlower : Names.lower "cue" = "cue" ∧ Names.lower "cue-region" = "cue-region" := by decide
  rw [Component.IsLegible, Component.text_cue]
  cases region with
  | false =>
    have hread : readPseudoElement g "cue" (Item.ofTrees ts) =
        .ok (knownElement (.cue false cs) {}) := by
      rw [readPseudoElement, hlower.1]
      simp only [hcs]
      rfl
    exact hcalls.1.writtenSimples_element hbarred hslotted hts endsCompounds_parenClose hread
  | true =>
    have hread : readPseudoElement g "cue-region" (Item.ofTrees ts) =
        .ok (knownElement (.cue true cs) {}) := by
      rw [readPseudoElement, hlower.2]
      simp only [hcs]
      rfl
    exact hcalls.2.writtenSimples_element hbarred hslotted hts endsCompounds_parenClose hread

end Brackets

/-! ## All components -/

section All

variable {f g : Flags} {name : String} {items : List Item} {c : Component}

/-- The readers that a pseudo-class with arguments may come from. -/
inductive IsClassOf (f : Flags) (name : String) (items : List Item) (c : Component) : Prop
  | formula {k : Counted} : Names.formulas.lookup (Names.lower name) = some k → f.afterAny = false →
      readNth f k items = .ok c → IsClassOf f name items c
  | matching {m : Matching} : readMatching f m items = .ok c → IsClassOf f name items c
  | host {inner : List Component} : f.afterAny = false →
      readMatchOrder f.inCompound items = .ok inner → c = .host inner → IsClassOf f name items c
  | arguments : f.afterAny = false → Names.formulas.lookup (Names.lower name) = none →
      Names.matching.lookup (Names.lower name) = none → Names.lower name ≠ "host" →
      readPseudoClassArguments name items = .ok c → IsClassOf f name items c

theorem isClassOf_of_read (h : readPseudoClass f name items = .ok c) :
    IsClassOf f name items c := by
  rw [readPseudoClass] at h
  dsimp only at h
  split at h
  · rename_i hformulas
    split_ifs at h with hafter
    · cases h
    · exact .formula hformulas (by simpa using hafter) h
  · exact .matching h
  · rename_i hformulas hmatching
    split_ifs at h with hafter hhost
    · cases h
    · obtain ⟨inner, hinner, rfl⟩ := exists_of_map_eq_ok h
      exact .host (by simpa using hafter) hinner rfl
    · exact .arguments (by simpa using hafter) hformulas hmatching hhost h

/-- A formula, with the list behind it if it has one. -/
theorem isLegible_of_readNth {k : Counted} (hitems : SoundItems items)
    (hk : Names.formulas.lookup (Names.lower name) = some k) (hafter : g.afterAny = false)
    (h : readNth f k items = .ok c) (hlossy : c.isLossy = false)
    (hback : ∀ x ∈ c.within, x.ReadsBack) : c.IsLegible g := by
  obtain ⟨p, rfl⟩ | ⟨hchild, p, r, hr, rfl⟩ := readNth_eq_ok h
  · exact isLegible_nth hk hafter hlossy
  · exact isLegible_nthOf hk hchild hafter (isPiece_readForgiving (hitems.of_suffix hr)
      (fun _ _ hs => isPiece_of_readMatchOrder hs) hback true)

theorem exists_of_standsAlone {list : List (List Component)}
    (h : Printed.standsAlone (printedLists list) = true) : ∃ s, list = [s] := by
  match list with
  | [s] => exact ⟨s, rfl⟩
  | [] => cases h
  | _ :: _ :: _ => cases h

/-- A list that is forgiving may be that of an `:is()` that stands alone. -/
theorem isLegible_of_readForgivingList {m : Matching} (hm : m ≠ .not) (hitems : SoundItems items)
    (he : f.Eases g)
    (hlossy : (Component.matching m (readForgivingList f.inList items)).isLossy = false)
    (hback : ∀ x ∈ (readForgivingList f.inList items).flatten, x.ReadsBack) :
    (Component.matching m (readForgivingList f.inList items)).IsLegible g := by
  by_cases halone : m = .is ∧ Printed.standsAlone (printedLists (readForgivingList f.inList items))
  · obtain ⟨rfl, halone⟩ := halone
    obtain ⟨s, hs⟩ := exists_of_standsAlone halone
    have hmem : s ∈ readForgivingList f.inList items := by simp [hs]
    obtain ⟨seg, hseg, hread⟩ := exists_of_mem_readForgiving hmem
    rw [hs] at halone hlossy hback ⊢
    rw [List.flatten_singleton] at hback
    exact isLegible_is_alone (hitems.of_mem_segments hseg) hread he halone hlossy hback
  · refine isLegible_forgiving hm (by simpa [or_iff_not_imp_left] using halone) fun relative => ?_
    exact isPiece_readForgiving hitems (fun _ _ hs => isPiece_of_readMatchOrder hs) hback
      relative

/-- The list of `:not()`, each selector of which is read. -/
theorem isLegible_of_readSegments {list : List (List Component)} (hitems : SoundItems items)
    (he : f.Eases g) (h : readSegments (readMatchOrder f.inList) (segments items) = .ok list)
    (hlossy : (Component.matching .not list).isLossy = false)
    (hback : ∀ x ∈ list.flatten, x.ReadsBack) : (Component.matching .not list).IsLegible g := by
  have hread (cs : List Component) (hcs : cs ∈ list) :
      ∃ seg, SoundItems seg ∧ readMatchOrder f.inList seg = .ok cs := by
    obtain ⟨seg, hseg, hread⟩ := exists_of_mem_readSegments h hcs
    exact ⟨seg, hitems.of_mem_segments hseg, hread⟩
  have hinside (cs : List Component) (hcs : cs ∈ list) : ∀ x ∈ cs, x.ReadsBack := fun x hx =>
    hback x (List.mem_flatten.2 ⟨cs, hcs, hx⟩)
  have hlist : list = (list.map chainOf).map Chain.toMatchOrder := by
    rw [List.map_map]
    exact (List.map_id list).symm.trans
      (List.map_congr_left fun cs _ => (toMatchOrder_chainOf cs).symm)
  have hne : list.map chainOf ≠ [] := by
    simpa using ne_nil_of_readSegments h (Sequence.splitWhere_ne_nil _ _)
  rw [hlist]
  refine isLegible_not hne (fun chain hchain => ?_) ?_
  · obtain ⟨cs, hcs, rfl⟩ := List.mem_map.1 hchain
    obtain ⟨seg, hseg, hcsread⟩ := hread cs hcs
    obtain ⟨chain, rfl, hchain, horigin⟩ := readMatchOrder_eq_ok hseg hcsread
    have hback := hinside _ hcs
    have hstrands : (chainOf chain.toMatchOrder).strandsBehind = false := by
      simp only [Component.isLossy, List.any_eq_false] at hlossy
      simpa using hlossy _ hcs
    simp only [Chain.mem_toMatchOrder] at hback
    rw [chainOf_toMatchOrder] at hstrands ⊢
    rw [← he.inList]
    exact hchain.writtenSelector (Chain.isLegible_of_readsBack horigin hback) nofun hstrands
  · rw [← hlist]
    refine isPiece_printedLists (fun cs hcs => ?_) false
    obtain ⟨seg, hseg, hcsread⟩ := hread cs hcs
    exact isPiece_of_readMatchOrder hseg hcsread (hinside cs hcs)

theorem isLegible_of_readMatching {m : Matching} (hitems : SoundItems items) (he : f.Eases g)
    (h : readMatching f m items = .ok c) (hlossy : c.isLossy = false)
    (hback : ∀ x ∈ c.within, x.ReadsBack) : c.IsLegible g := by
  unfold readMatching at h
  split at h
  · obtain ⟨list, hlist, rfl⟩ := exists_of_map_eq_ok h
    exact isLegible_of_readSegments hitems he hlist hlossy hback
  · cases h
    exact isLegible_forgiving (by simp) (.inl (by simp)) fun relative =>
      isPiece_readForgiving hitems (fun _ _ hs => isPiece_of_readRelative hs) hback relative
  · rename_i hnot _
    cases h
    exact isLegible_of_readForgivingList hnot hitems he hlossy hback

/-- A component that is not lossy is read back if what is inside it is. -/
theorem Component.readsBack_of_within (hlossy : c.isLossy = false)
    (hback : ∀ x ∈ c.within, x.ReadsBack) : c.ReadsBack := by
  intro hpseudo f g horigin he
  cases horigin with
  | plainClass _ helement h =>
    refine isLegible_of_plainClass he helement h ?_
    rintro w rfl
    simpa [isLossy] using hlossy
  | plainElement _ hbarred hslotted hc =>
    refine isLegible_of_plainElement he hbarred hslotted hc hpseudo ?_
    rintro w rfl
    simpa [isLossy] using hlossy
  | pseudoClass hitems helement h =>
    cases isClassOf_of_read h with
    | formula hk hafter h =>
      exact isLegible_of_readNth hitems hk (he.afterAny ▸ hafter) h hlossy hback
    | matching h => exact isLegible_of_readMatching hitems he h hlossy hback
    | host hafter hinner hc =>
      subst hc
      rw [he.inCompound] at hinner
      exact isLegible_host hitems (he.afterAny ▸ hafter) hinner hback
    | arguments hafter hformulas hmatching hhost h =>
      refine isLegible_of_readPseudoClassArguments hitems (he.afterAny ▸ hafter) helement hformulas
        hmatching hhost h ?_ ?_
      · rintro l ns rfl
        simpa [isLossy] using hlossy
      · rintro l ts rfl
        simpa [isLossy] using hlossy
  | pseudoElement hitems hbarred hslotted h hc =>
    have hslotted' : g.afterSlotted = false := he.afterSlotted ▸ hslotted
    have hread := isReadElement_of_read h hc hpseudo
    match c, hread with
    | .slotted inner, .slotted hafter h =>
      rw [he.inCompound] at h
      exact isLegible_slotted hitems (he.barred hbarred) (he.afterAny ▸ hafter) h hback
    | .cue region inner, .cue h =>
      have hstrands : (chainOf inner).strandsBehind = false := by simpa [isLossy] using hlossy
      exact isLegible_cue hitems (he.barred hbarred) hslotted' h hstrands hback
    | .pseudoElement l args, hread =>
      refine isLegible_of_isReadElement he hitems hbarred hslotted hread ?_
      rintro ts rfl
      simpa [isLossy] using hlossy

/-- A faithful pseudo-class or pseudo-element is read back. -/
theorem Component.readsBack_of_isFaithful (c : Component) (h : c.isFaithful = true) :
    c.ReadsBack := by
  obtain ⟨hlossy, hwithin⟩ := isFaithful_iff.1 h
  exact readsBack_of_within hlossy fun x hx => readsBack_of_isFaithful x (hwithin x hx)
termination_by sizeOf c
decreasing_by exact sizeOf_lt_of_mem_within hx

/-- A chain whose components are faithful is read back, as far as its pseudo-classes and
pseudo-elements are concerned. -/
theorem Chain.isLegible_of_allFaithful {chain : Chain}
    (horigin : chain.Along (fun f c => c.Origin f) f) (h : allFaithful chain = true) :
    chain.IsLegible f :=
  isLegible_of_readsBack horigin fun x hx => x.readsBack_of_isFaithful (allFaithful_iff.1 h x hx)

end All

end MailCss
