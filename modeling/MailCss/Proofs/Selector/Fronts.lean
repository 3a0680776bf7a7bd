import MailCss.Proofs.Expansion.Targeting
import MailCss.Proofs.Selector.Independence
import MailCss.Proofs.Selector.Retarget

/-!
# What an adapted selector begins with

What a client combines selectors with begins with a component that does not depend on the class
which stands for the body element: the `u` element for Gmail, the `body` element for AOL, and an
attribute or a class for the others. A selector without an anchor has this component in front once
it is adapted, and what is written for it begins with the text of the component.

Main statement: `Client.head?_of_adapter`.
-/

namespace MailCss

open Css (Token TokenTree)

/-! ## Writing -/

/-- A component other than a combinator and the universal selector is written where it stands. -/
theorem Chain.exists_textFrom_cons {x : Component} (hcombinator : x.isCombinator = false)
    (huniversal : x.isUniversal = false) (leading : Bool) (r : Chain) :
    ∃ w, textFrom leading (x :: r) = x.text ++ w := by
  have hkept (kept : Bool) : Printed.written kept [⟨x, x.text⟩] = [⟨x, x.text⟩] := by
    rw [Printed.written]
    split
    · rfl
    · simp [huniversal]
  have htexts (kept : Bool) (c : Chain) :
      Printed.texts (Printed.written kept (printedAll (x :: c))) =
        x.text ++ Printed.texts (Printed.written kept (printedAll c)) := by
    have hcons : printedAll (x :: c) = [⟨x, x.text⟩] ++ printedAll c := rfl
    rw [hcons, written_append, hkept]
    rfl
  induction r using compound_induction with
  | compound c hc =>
    have hcompound : IsCompound (x :: c) := by
      intro y hy
      rcases List.mem_cons.1 hy with rfl | hy
      · exact hcombinator
      · exact hc y hy
    rw [textFrom_of_isCompound hcompound, headText, htexts]
    exact ⟨_, rfl⟩
  | combinator c k r hc _ =>
    have hcompound : IsCompound (x :: c) := by
      intro y hy
      rcases List.mem_cons.1 hy with rfl | hy
      · exact hcombinator
      · exact hc y hy
    have hparts : parts (x :: (c ++ .combinator k :: r)) = printedAll (x :: c) :: parts r :=
      parts_append hcompound k r
    have hcons : (printedAll (x :: c)).isEmpty = false := rfl
    rw [textFrom, hparts]
    simp only [Printed.compounds, Bool.false_and, Bool.false_eq_true, if_false, hcons,
      Printed.compound_eq, htexts, List.nil_append, List.append_assoc]
    exact ⟨_, rfl⟩

/-! ## Reading -/

variable {name : String} {t : Item} {items rest : List Item}

/-- A name that no bar follows is a type selector, with the simple selectors behind it. -/
theorem readCompound_ident (hitems : dropSkipped items = t :: rest) (ht : t.token = .ident name)
    (hbar : ∀ u ∈ (dropComments rest).head?, Attribute.isBar u = false) :
    readCompound {} items =
      readSimples rest.length { components := [.tag name], flags := {}, rest := rest } := by
  have hnesting : readNesting items = ([], t :: rest) := by
    rw [readNesting, hitems]
    simp [ht]
  have hcomment : t.isComment = false := by simp [Item.isComment, ht, Token.isComment]
  have htype : readTypeName (t :: rest) = .ok ([.tag name], rest) := by
    rw [readTypeName, dropComments_cons hcomment]
    simp only [ht, readTypeOrNamespace]
    cases hrest : dropComments rest with
    | nil => rfl
    | cons u r =>
      rw [hrest] at hbar
      simp [hbar u rfl]
  rw [readCompound, hnesting]
  simp only [readType, htype]
  rfl

/-- Reading goes on behind what has been built and, if it reads any, the first compound. -/
theorem readCompounds_extends {k : Nat} {f : Flags} {built chain : Chain} {r : List Item}
    (h : readCompounds k f built items = .ok (chain, r)) :
    k = 0 ∧ chain = built ∨ ∃ p, readCompound f items = .ok p ∧ built ++ p.components <+: chain := by
  induction k generalizing f built items with
  | zero =>
    cases h
    exact .inl ⟨rfl, rfl⟩
  | succ k ih =>
    obtain ⟨p, hp, h⟩ := exists_of_bind_eq_ok h
    refine .inr ⟨p, hp, ?_⟩
    dsimp only at h
    split at h
    · cases h
    split at h
    · split at h
      · cases h
        exact List.prefix_rfl
      · cases h
    split at h
    · cases h
      exact List.prefix_rfl
    · split at h
      · cases h
      · rcases ih h with ⟨-, rfl⟩ | ⟨q, -, hq⟩
        · exact List.prefix_append _ _
        · exact ((List.prefix_append _ _).trans (List.prefix_append _ _)).trans hq

/-- A selector that begins with a name which no bar follows begins with that type selector. -/
theorem head?_of_readSelector (hsound : SoundItems rest) (hitems : dropSkipped items = t :: rest)
    (ht : t.token = .ident name)
    (hbar : ∀ u ∈ (dropComments rest).head?, Attribute.isBar u = false) {chain : Chain}
    (h : readSelector {} items = .ok chain) : chain.head? = some (.tag name) := by
  obtain ⟨⟨c, r⟩, hread, h⟩ := exists_of_bind_eq_ok h
  obtain rfl := eq_of_exhausted_eq_ok h
  obtain ⟨⟨⟩, -⟩ | ⟨p, hp, hprefix⟩ := readCompounds_extends hread
  rw [readCompound_ident hitems ht hbar] at hp
  obtain ⟨s, hs, -⟩ := readSimples_eq_ok (p := ⟨_, _, _⟩) hsound hp
  rw [hs] at hprefix
  obtain ⟨c', rfl⟩ := hprefix
  rfl

/-- The first tree of a text that is not empty is one that a lexeme at the front of it opens. -/
theorem Css.TokenTree.exists_ofText_cons (c : Char) (r : List Char) :
    ∃ u ts s, ofText (c :: r) = u :: ts ∧ u.head = scan c s := by
  have hsource := sourceAll_ofText (c :: r)
  cases hts : ofText (c :: r) with
  | nil =>
    rw [hts] at hsource
    cases hsource
  | cons u ts =>
    have hmade := madeOf_of_mem_ofText (hts ▸ List.mem_cons_self : u ∈ _)
    obtain ⟨d, s, -, hhead⟩ := exists_suffix_of_mem_lexemes hmade.head_mem
    have hfront : u.head.source <+: c :: r := by
      rw [hts, sourceAll] at hsource
      rw [← hsource]
      exact u.head_source_prefix.trans (List.prefix_append _ _)
    -- The lexeme is no empty text, so what it is read from begins as the text does.
    obtain ⟨v, hv⟩ := exists_scan_source d s
    rw [hhead, hv, List.cons_prefix_cons] at hfront
    obtain rfl := hfront.1
    exact ⟨u, ts, s, rfl, hhead⟩

namespace SelectorList

theorem parse_cons_eq_ok {source : String} {l : SelectorList} (h : parse source = .ok l) :
    ∃ seg segs chain, segments (Item.ofTrees (TokenTree.ofText source.toList)) = seg :: segs ∧
      readSelector {} seg = .ok chain ∧ l.firstChain = chain := by
  rw [parse_eq_ok_iff, readSelectorList] at h
  cases hsegs : segments (Item.ofTrees (TokenTree.ofText source.toList)) with
  | nil => exact absurd hsegs (Sequence.splitWhere_ne_nil _ _)
  | cons seg segs =>
    rw [hsegs, readSegments] at h
    split at h
    · cases h
    · rename_i raw hraw
      obtain ⟨chain, hchain, rfl⟩ := exists_of_map_eq_ok hraw
      obtain ⟨raws, -, hl⟩ := exists_of_map_eq_ok h
      refine ⟨seg, segs, chain, rfl, hchain, ?_⟩
      obtain ⟨⟨front⟩, selectors, hselectors⟩ : ∃ front selectors, l.selectors = front :: selectors :=
        List.exists_cons_of_ne_nil (by rintro hnil; rw [hnil] at hl; cases hl)
      rw [hselectors, List.map_cons, List.cons.injEq] at hl
      obtain ⟨rfl, -⟩ := hl
      rw [firstChain, hselectors]
      exact chainOf_toMatchOrder chain

/-- A selector list whose text is a name and what goes on with neither a comment, a comma nor a bar
begins with that type selector. -/
theorem head?_firstChain {source : String} {w r : List Char} {d : Char} {l : SelectorList}
    (hw : Css.IsIdent w) (hr : Css.EndsIdents (d :: r)) (hsource : source.toList = w ++ d :: r)
    (hd : ∀ s, let t := (Css.scan d s).token
      t.isComment = false ∧ t ≠ .comma ∧ t ≠ .delim '|') (h : parse source = .ok l) :
    l.firstChain.head? = some (.tag (String.ofList (Css.unescape w))) := by
  obtain ⟨u, ts, s, hts, hhead⟩ := TokenTree.exists_ofText_cons d r
  have htrees : TokenTree.ofText source.toList = Css.identLeaf w :: u :: ts := by
    rw [hsource, (Css.spells_ident hw).ofText_append hr, hts]
    rfl
  have htoken : (Item.ofTree u).token = (Css.scan d s).token := by
    rw [Item.token_ofTree, TokenTree.token, hhead]
  obtain ⟨hcomment, hcomma, hbar⟩ := hd s
  rw [← htoken] at hcomment hcomma hbar
  obtain ⟨seg, segs, chain, hsegs, hread, rfl⟩ := parse_cons_eq_ok h
  -- The first selector has the name and what follows it.
  obtain ⟨seg', hseg⟩ : ∃ seg', seg = Item.ofTree (Css.identLeaf w) :: Item.ofTree u :: seg' := by
    have hcomma' : ((Item.ofTree u).token == .comma) = false := by simpa using hcomma
    obtain ⟨seg', segs', hrest⟩ := List.exists_cons_of_ne_nil
      (Sequence.splitWhere_ne_nil (fun t : Item => t.token == .comma) (Item.ofTrees ts))
    rw [htrees, Item.ofTrees, Item.ofTrees, segments, Sequence.splitWhere, Sequence.splitWhere,
      hcomma', hrest] at hsegs
    exact ⟨seg', (List.cons.inj hsegs).1.symm⟩
  have hsound : SoundItems seg := (SoundItems.ofText source.toList).of_mem_segments
    (hsegs ▸ List.mem_cons_self)
  rw [hseg] at hread hsound
  have hdrop : dropSkipped (Item.ofTree (Css.identLeaf w) :: Item.ofTree u :: seg') =
      Item.ofTree (Css.identLeaf w) :: Item.ofTree u :: seg' := rfl
  refine head?_of_readSelector (hsound.of_suffix (List.suffix_cons _ _)) hdrop (Item.token_ofTree _)
    ?_ hread
  rw [dropComments_cons hcomment]
  rintro v ⟨⟩
  simpa [Attribute.isBar] using hbar

end SelectorList

/-! ## Clients -/

/-- The text that selectors are combined with, if they are. -/
def Conversion.companion? : Conversion → Option String
  | .media _ => none
  | .retargetBody s | .wrap s => some s

namespace Client

variable {c : Client} {bodyClass s t : String}

theorem exists_parse_of_adapter (hc : c.hoists = true) (h : c.adapter bodyClass s = .ok t) :
    ∃ l, SelectorList.parse s = .ok l := by
  cases c with
  | yahoo | webkit => cases hc
  | aol | gmail | outlookCom | thunderbird =>
    obtain ⟨l, -, hl, -⟩ := Adapt.withFirstChain_eq_ok_iff.1 h
    exact ⟨l, hl⟩

/-- Where no selector has an anchor, a client puts its companion's first selector in front. -/
theorem adapter_eq_ok_iff (hc : c.hoists = true) {l : SelectorList}
    (hl : SelectorList.parse s = .ok l) (hnone : ∀ chain ∈ l.chains, Chain.NoAnchor bodyClass chain) :
    c.adapter bodyClass s = .ok t ↔ ∃ companion front,
      (c.conversion bodyClass).companion? = some companion ∧
      SelectorList.parse companion = .ok front ∧
      (SelectorList.ofChains (l.chains.map (Chain.prepend front.firstChain))).print = t := by
  have hretarget (front : Chain) :
      l.chains.map (Chain.retarget bodyClass front) = l.chains.map (Chain.prepend front) :=
    List.map_congr_left fun chain hchain => Chain.retarget_of_noAnchor (hnone chain hchain) front
  cases c with
  | yahoo | webkit => cases hc
  | aol | gmail =>
    simp [adapter, conversion, Conversion.companion?, Adapt.retargetBody,
      Adapt.withFirstChain_eq_ok_iff, hl, hretarget]
  | outlookCom | thunderbird =>
    simp [adapter, conversion, Conversion.companion?, Adapt.addWrapper,
      Adapt.withFirstChain_eq_ok_iff, hl]

/-- The characters that the companions of clients begin with. -/
def frontChars : List Char := ['b', 'u', '[', '.']

/-- Whether a chain begins with a component that is written with one of these in front. -/
def beginsAsCompanion (chain : Chain) : Bool :=
  chain.head?.any fun x => !x.isCombinator && !x.isUniversal && x.text.head?.any (· ∈ frontChars)

/-- A companion begins with a component that does not depend on the class for the body element. -/
theorem beginsAsCompanion_firstChain {companion : String} {front : SelectorList}
    (h : (c.conversion bodyClass).companion? = some companion)
    (hfront : SelectorList.parse companion = .ok front) :
    beginsAsCompanion front.firstChain = true := by
  have hconstant {w : String} (hw : ((SelectorList.parse w).toOption.all fun l =>
      beginsAsCompanion l.firstChain) = true) (hl : SelectorList.parse w = .ok front) :
      beginsAsCompanion front.firstChain = true := by
    rw [hl] at hw
    exact hw
  cases c with
  | yahoo | webkit => cases h
  | aol =>
    cases h
    have hhead := SelectorList.head?_firstChain (w := "body".toList) (d := '[')
      (r := "class~=\"aolmail_".toList ++ (bodyClass.toList ++ ['"', ']'])) (by decide)
      (endsIdents_cons (by decide) (by decide) _) (by simp) (fun s => ⟨rfl, nofun, nofun⟩) hfront
    rw [beginsAsCompanion, hhead]
    decide
  | gmail =>
    cases h
    have hhead := SelectorList.head?_firstChain (w := "u".toList) (d := ' ')
      (r := "+ .".toList ++ bodyClass.toList) (by decide)
      (endsIdents_cons (by decide) (by decide) _) (by simp) (fun s => ⟨rfl, nofun, nofun⟩) hfront
    rw [beginsAsCompanion, hhead]
    decide
  | outlookCom =>
    cases h
    exact hconstant (by decide) hfront
  | thunderbird =>
    cases h
    exact hconstant (by decide +kernel) hfront

/-- A selector list without anchors that a client has adapted begins as the client's companion
does. -/
theorem head?_of_adapter (hc : c.hoists = true) {l : SelectorList}
    (hl : SelectorList.parse s = .ok l) (hnone : ∀ chain ∈ l.chains, Chain.NoAnchor bodyClass chain)
    (h : c.adapter bodyClass s = .ok t) : ∃ d ∈ frontChars, t.toList.head? = some d := by
  obtain ⟨companion, front, hcompanion, hfront, rfl⟩ := (adapter_eq_ok_iff hc hl hnone).1 h
  have hbegins := beginsAsCompanion_firstChain hcompanion hfront
  cases hchain : front.firstChain with
  | nil =>
    rw [hchain] at hbegins
    cases hbegins
  | cons x r =>
    rw [hchain] at hbegins
    simp only [beginsAsCompanion, List.head?_cons, Option.any_some, Bool.and_eq_true,
      Bool.not_eq_true', Option.any_eq_true, decide_eq_true_eq] at hbegins
    obtain ⟨⟨hcombinator, huniversal⟩, d, htext, hd⟩ := hbegins
    obtain ⟨chain, chains, hchains⟩ := List.exists_cons_of_ne_nil
      (SelectorList.chains_ne_nil (SelectorList.read_of_parse hl))
    obtain ⟨w, hw⟩ := Chain.exists_textFrom_cons hcombinator huniversal true
      (r ++ .combinator .descendant :: chain)
    -- The list is written from its first selector on, which the companion is in front of.
    obtain ⟨v, hv⟩ : ∃ v, (SelectorList.ofChains (l.chains.map (Chain.prepend (x :: r)))).text =
        x.text ++ v := by
      obtain ⟨v, hv⟩ := exists_joinTexts_cons ", ".toList
        (Chain.textFrom true (Chain.prepend (x :: r) chain))
        ((chains.map (Chain.prepend (x :: r))).map (Chain.textFrom true))
      refine ⟨w ++ v, ?_⟩
      rw [SelectorList.text, SelectorList.ofChains, hchains, List.map_cons, List.map_map]
      refine hv.trans ?_
      exact (congrArg (· ++ v) hw).trans (List.append_assoc _ _ _)
    refine ⟨d, hd, ?_⟩
    rw [SelectorList.print, String.toList_ofList, hv, List.head?_append, htext]
    rfl

end Client

end MailCss
