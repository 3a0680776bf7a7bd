import MailCss.Selector.Adapt

/-!
# When a selector text can be adapted

Adapting a selector list fails only where it, or what it is combined with, is no selector list;
writing the adapted list never fails and is done chain by chain.

Main statements: `withFirstChain_eq_ok_iff`, `isOk_withFirstChain` and `print_ofChains`.
-/

namespace MailCss

theorem ofList_joinTexts (sep : String) (ts : List (List Char)) :
    String.ofList (joinTexts sep.toList ts) = sep.intercalate (ts.map String.ofList) := by
  induction ts with
  | nil => rfl
  | cons t ts ih =>
    cases ts with
    | nil => simp [joinTexts]
    | cons u ts =>
      have hcons : joinTexts sep.toList (t :: u :: ts) =
          t ++ sep.toList ++ joinTexts sep.toList (u :: ts) := rfl
      rw [hcons, String.ofList_append, String.ofList_append, String.ofList_toList, ih]
      exact String.intercalate_cons_cons.symm

/-- Chains are written one by one, with a comma and a space between them. -/
theorem SelectorList.print_ofChains (cs : List Chain) :
    (ofChains cs).print = ", ".intercalate (cs.map fun c => (ofChains [c]).print) := by
  rw [print, text, ofList_joinTexts, ofChains, List.map_map, List.map_map]
  congr 1

namespace Adapt

theorem parse_eq_ok_iff {source : String} {l : SelectorList} :
    parse source = .ok l ↔ SelectorList.parse source = .ok l := by
  rw [parse]
  cases SelectorList.parse source with
  | error => constructor <;> rintro ⟨⟩
  | ok l' =>
    constructor
    · rintro ⟨⟩
      rfl
    · rintro ⟨⟩
      rfl

theorem isOk_parse (source : String) : (parse source).isOk = (SelectorList.parse source).isOk := by
  rw [parse]
  cases SelectorList.parse source <;> rfl

variable {edit : Chain → Chain → Chain} {other s t : String}

/-- A selector text is adapted by way of the lists that it and the other text hold. -/
theorem withFirstChain_eq_ok_iff :
    withFirstChain edit other s = .ok t ↔
      ∃ l front, SelectorList.parse s = .ok l ∧ SelectorList.parse other = .ok front ∧
        (SelectorList.ofChains (l.chains.map (edit front.firstChain))).print = t := by
  simp only [← parse_eq_ok_iff]
  rw [withFirstChain]
  cases parse s with
  | error e => simp [bind, Except.bind]
  | ok l =>
    cases parse other with
    | error e => simp [bind, Except.bind]
    | ok front => simp [bind, Except.bind, pure, Except.pure]

/-- Where the other text is a selector list, those texts can be adapted that are one too. -/
theorem isOk_withFirstChain (h : (SelectorList.parse other).isOk = true) (s : String) :
    (withFirstChain edit other s).isOk = (SelectorList.parse s).isOk := by
  rw [← isOk_parse] at h ⊢
  rw [withFirstChain]
  cases hs : parse s with
  | error e => rfl
  | ok l =>
    cases ho : parse other with
    | error e =>
      rw [ho] at h
      cases h
    | ok front => rfl

end Adapt

end MailCss
