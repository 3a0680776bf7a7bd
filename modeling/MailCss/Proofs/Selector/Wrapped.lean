import MailCss.Client
import MailCss.Proofs.Selector.Adapted
import MailCss.Proofs.Selector.Anchors

/-!
# Selectors below an ancestor

An ancestor that holds no pseudo-element is written in front of a selector as it is written alone,
and the selector behind it too, unless the selector begins with the nesting selector. Writing goes
along compounds and combinators side by side, so that this is a matter of compounds: the ancestor
has as many compounds as combinators behind them, none of them empty, and what is written for a
compound depends on its place in two ways only, the combinator behind it and whether it is the first.

Main statement: `Adapt.addWrapper_eq_intercalate`.
-/

namespace MailCss

/-- Whether a component is a pseudo-element. -/
def Component.isPseudoElement : Component → Bool
  | .pseudoElement .. | .slotted _ | .cue .. => true
  | _ => false

theorem Component.isPseudoElement_of_raised {c : Component} (h : c.raised.afterAny = true) :
    c.isPseudoElement = true := by
  cases c <;> first | rfl | cases h

namespace Chain

variable {c front : Chain} {f g : Flags}

/-! ## The ancestor -/

/-- Without pseudo-elements, simple selectors in a row raise no flags. -/
theorem IsRow.eq_of_not_pseudoElement (hc : IsRow f c g)
    (hnone : ∀ x ∈ c, x.isPseudoElement = false) : g = f := by
  induction hc with
  | nil => rfl
  | plain _ _ _ ih => exact ih fun x hx => hnone x (List.mem_cons_of_mem _ hx)
  | @element _ _ _ c _ _ _ hraised _ _ =>
    have hpseudo := hnone c (by simp)
    rw [Component.isPseudoElement_of_raised hraised] at hpseudo
    cases hpseudo

theorem IsReadCompound.ne_nil (hc : IsReadCompound f c g) : c ≠ [] := by
  obtain ⟨-, -, -, -, hne⟩ := hc
  exact hne

theorem IsReadCompound.eq_of_not_pseudoElement (hc : IsReadCompound f c g)
    (hnone : ∀ x ∈ c, x.isPseudoElement = false) : g = f := by
  obtain ⟨-, -, -, hs, -⟩ := hc
  exact hs.eq_of_not_pseudoElement fun x hx => hnone x (List.mem_append_right _ hx)

/-- A chain without pseudo-elements is written in front of a combinator as it is written alone. -/
theorem IsRead.textFrom_append (hc : IsRead {} front)
    (hnone : ∀ x ∈ front, x.isPseudoElement = false) {k : Combinator} (hk : k.isVisible = true)
    (leading : Bool) (r : Chain) : textFrom leading (front ++ .combinator k :: r) =
      textFrom leading front ++ (k.text ++ textFrom false r) := by
  induction hc generalizing leading with
  | compound hc =>
    obtain rfl := hc.eq_of_not_pseudoElement hnone
    rw [Chain.textFrom_append hc.isCompound hc.ne_nil hk, textFrom_of_isCompound hc.isCompound]
  | @combinator c l s _ hc hl hs ih =>
    have hrest := ih (fun x hx => hnone x (List.mem_append_right _ (List.mem_cons_of_mem _ hx)))
    rw [List.append_assoc, List.cons_append, Chain.textFrom_append hc.isCompound hc.ne_nil hl,
      Chain.textFrom_append hc.isCompound hc.ne_nil hl, hrest]
    simp only [List.append_assoc]

/-! ## The selector behind it -/

/-- Only the nesting selector makes the first compound different from the others. -/
theorem headText_of_not_nesting (hc : c.head?.any Component.isNesting = false) (leading alone : Bool) :
    headText leading alone c = headText false alone c := by
  have hkeeps : Printed.keepsUniversal leading alone (printedAll c) =
      Printed.keepsUniversal false alone (printedAll c) := by
    cases c with
    | nil => cases leading <;> rfl
    | cons x c =>
      have hx : x.isNesting = false := hc
      simp [Printed.keepsUniversal, Printed.behindNamespace, printedAll, hx]
  rw [headText, headText, hkeeps]

/-- A chain that does not begin with the nesting selector is written behind others as it is written
alone. -/
theorem IsRead.textFrom_eq (hc : IsRead {} c) (hnesting : c.head?.any Component.isNesting = false)
    (leading : Bool) : textFrom leading c = textFrom false c := by
  have hhead {d r : Chain} (h : (d ++ r).head?.any Component.isNesting = false) :
      d.head?.any Component.isNesting = false := by
    cases d with
    | nil => rfl
    | cons x d => exact h
  cases hc with
  | compound hc =>
    obtain ⟨hn, hy, -, hs, -⟩ := hc
    have hcompound := isCompound_append hn.isCompound hy.isCompound
    obtain ⟨alone, -, htext⟩ := hs.textFrom_append
    rw [htext _ _ hcompound, htext _ _ hcompound, headText_of_not_nesting (hhead hnesting)]
  | combinator _ hc hk _ =>
    rw [Chain.textFrom_append hc.isCompound hc.ne_nil hk,
      Chain.textFrom_append hc.isCompound hc.ne_nil hk, headText_of_not_nesting (hhead hnesting)]

theorem IsRead.ne_nil (hc : IsRead f c) : c ≠ [] := by
  cases hc with
  | compound hc => exact hc.ne_nil
  | combinator => simp

/-- Both together: an ancestor, a space and the selector. -/
theorem IsRead.text_prepend (hfront : IsRead {} front)
    (hnone : ∀ x ∈ front, x.isPseudoElement = false) (hc : IsRead {} c)
    (hnesting : c.head?.any Component.isNesting = false) :
    textFrom true (prepend front c) = textFrom true front ++ ([' '] ++ textFrom true c) := by
  have hne : front.isEmpty = false := by simpa using hfront.ne_nil
  rw [prepend, hne, hc.textFrom_eq hnesting true]
  exact hfront.textFrom_append hnone rfl true c

end Chain

/-! ## Selector lists -/

namespace SelectorList

theorem isRead_firstChain {source : String} {l : SelectorList} (h : parse source = .ok l) :
    l.firstChain.IsRead {} := by
  have hread := read_of_parse h
  obtain ⟨s, ss, hs⟩ : ∃ s ss, l.selectors = s :: ss := by
    refine List.exists_cons_of_ne_nil fun hnil => chains_ne_nil hread ?_
    rw [chains, hnil]
    rfl
  have hfirst : l.firstChain = s.chain := by
    rw [firstChain, hs]
    rfl
  rw [hfirst]
  exact (isRead_of_read hread _ (List.mem_map_of_mem (by simp [hs]))).1

end SelectorList

namespace Adapt

/-- A text whose first selector, of components `front`, can stand in front of others. -/
def IsAncestor (wrapper : String) (front : Chain) : Prop :=
  ∃ l, SelectorList.parse wrapper = .ok l ∧ l.firstChain = front ∧
    ∀ x ∈ front, x.isPseudoElement = false

theorem exists_isAncestor {client : Client} {bodyClass wrapper : String}
    (h : client.conversion bodyClass = .wrap wrapper) : ∃ front, IsAncestor wrapper front := by
  have hplain : ((SelectorList.parse wrapper).toOption.any fun l =>
      l.firstChain.all fun x => !x.isPseudoElement) = true := by
    cases client with
    | outlookCom | thunderbird =>
      cases h
      decide_cbv
    | _ => cases h
  cases hl : SelectorList.parse wrapper with
  | error e =>
    rw [hl] at hplain
    cases hplain
  | ok l =>
    rw [hl] at hplain
    exact ⟨l.firstChain, l, hl, rfl, by simpa [Except.toOption] using hplain⟩

/-- The ancestor of a client holds no pseudo-element. A selector list whose selectors do not begin
with the nesting selector, below the first selector of such a text: each of the selectors is written
behind the ancestor and a space, each as it is written alone. Where no selector has an anchor,
retargeting gives the same. -/
theorem addWrapper_eq_intercalate :
    (∀ (client : Client) (bodyClass wrapper : String),
      client.conversion bodyClass = .wrap wrapper → ∃ front, IsAncestor wrapper front) ∧
    ∀ (wrapper s : String) (front : Chain) (l : SelectorList),
      IsAncestor wrapper front → SelectorList.parse s = .ok l →
      (∀ c ∈ l.chains, c.head?.any Component.isNesting = false) →
      let text := ", ".intercalate (l.chains.map fun c =>
        (SelectorList.ofChains [front]).print ++ " " ++ (SelectorList.ofChains [c]).print)
      addWrapper wrapper s = .ok text ∧
        ∀ bodyClass, (∀ c ∈ l.chains, Chain.NoAnchor bodyClass c) →
          retargetBody bodyClass wrapper s = .ok text := by
  refine ⟨fun _ _ _ h => exists_isAncestor h, ?_⟩
  rintro wrapper s _ l ⟨lw, hwrapper, rfl, hnone⟩ hs hnesting text
  have hfront := SelectorList.isRead_firstChain hwrapper
  have hread := SelectorList.isRead_of_read (SelectorList.read_of_parse hs)
  -- The list is written chain by chain, so it is enough to prepend to each of them.
  have hprepend : ∀ c ∈ l.chains, (SelectorList.ofChains [Chain.prepend lw.firstChain c]).print =
      (SelectorList.ofChains [lw.firstChain]).print ++ " " ++ (SelectorList.ofChains [c]).print := by
    intro c hc
    have htext := hfront.text_prepend hnone (hread c hc).1 (hnesting c hc)
    show String.ofList (Chain.textFrom true _) =
      String.ofList (Chain.textFrom true _) ++ " " ++ String.ofList (Chain.textFrom true _)
    rw [htext, String.ofList_append, String.ofList_append, String.append_assoc]
  have htext : (SelectorList.ofChains (l.chains.map (Chain.prepend lw.firstChain))).print = text := by
    rw [SelectorList.print_ofChains, List.map_map]
    exact congrArg _ (List.map_congr_left hprepend)
  refine ⟨withFirstChain_eq_ok_iff.2 ⟨l, lw, hs, hwrapper, htext⟩, fun bodyClass hanchor => ?_⟩
  refine withFirstChain_eq_ok_iff.2 ⟨l, lw, hs, hwrapper, ?_⟩
  rw [List.map_congr_left fun c hc => Chain.retarget_of_noAnchor (hanchor c hc) lw.firstChain]
  exact htext

/-- Combinators, a universal selector that is left out, and a pseudo-element with nothing in front
of it, below the class of a client. -/
theorem addWrapper_eq_intercalate_sample :
    let s := "a>*.b,::before"
    (SelectorList.parse s).isOk = true ∧
      addWrapper ".moz-text-html" s = .ok ".moz-text-html a > .b, .moz-text-html :before" ∧
      retargetBody "body" ".moz-text-html" s =
        .ok ".moz-text-html a > .b, .moz-text-html :before" := by
  intro s
  let below (front : Chain) (l : SelectorList) := ", ".intercalate (l.chains.map fun c =>
    (SelectorList.ofChains [front]).print ++ " " ++ (SelectorList.ofChains [c]).print)
  have hchecks : (do
      let front ← SelectorList.parse ".moz-text-html"
      let l ← SelectorList.parse s
      return (l.chains.all fun c : Chain => !c.head?.any Component.isNesting &&
        c.all fun x => !x.isAnchor "body", below front.firstChain l)) =
      .ok (true, ".moz-text-html a > .b, .moz-text-html :before") := by
    decide +kernel
  obtain ⟨_, front, hfront, rfl, hnone⟩ := addWrapper_eq_intercalate.1 .thunderbird "body" _ rfl
  rw [hfront] at hchecks
  cases hl : SelectorList.parse s with
  | error e =>
    rw [hl] at hchecks
    cases hchecks
  | ok l =>
    rw [hl] at hchecks
    obtain ⟨hplain, htext⟩ := Prod.mk.inj (Except.ok.inj hchecks)
    simp only [List.all_eq_true, Bool.and_eq_true, Bool.not_eq_true'] at hplain
    obtain ⟨hwrapped, hretargeted⟩ := addWrapper_eq_intercalate.2 ".moz-text-html" s _ l
      ⟨front, hfront, rfl, hnone⟩ hl fun c hc => (hplain c hc).1
    rw [← htext]
    exact ⟨rfl, hwrapped, hretargeted "body" fun c hc => (hplain c hc).2⟩

end Adapt

end MailCss
