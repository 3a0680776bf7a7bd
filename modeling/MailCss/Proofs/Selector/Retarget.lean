import MailCss.Client
import MailCss.Proofs.Selector.Adapted
import MailCss.Proofs.Selector.Anchors
import MailCss.Proofs.Selector.Faithful

/-!
# Retargeted selector lists

What the clients with a replacement for the body element make of a selector list is a selector list
again, of as many selectors, unless a selector has its anchor behind something that no type selector
can follow. That holds for selectors whose components are faithful.

Main statement: `Adapt.retargetBody_parses_iff`.
-/

namespace MailCss

open Css

/-! ## The replacements of the clients -/

/-- An identifier at the end of a text. -/
theorem spells_identifier {w : List Char} (h : IsIdentifier w) : Spells (· = []) w [identLeaf w] := by
  refine ⟨_, .leaf rfl rfl .nil, ?_⟩
  rintro r rfl
  rw [List.append_nil, h.lexemes_eq]
  rfl

/-- A class next to a `u` element. -/
theorem parse_sibling {bodyClass : String} (h : IsIdentifier bodyClass.toList) :
    SelectorList.parse ("u + ." ++ bodyClass) =
      .ok ⟨[⟨[.className (String.ofList (unescape bodyClass.toList)), .combinator .nextSibling,
        .tag "u"]⟩]⟩ := by
  have hw : BeginsNoDigit bodyClass.toList := by
    intro c hc
    have hstarts := h.starts
    rw [List.eq_cons_of_mem_head? hc] at hstarts
    exact isDigit_of_startsFront (startsName_of_startsIdent hstarts)
  have hspells : Spells (· = []) ("u".toList ++ ([' '] ++ (['+'] ++ ([' '] ++ (['.'] ++
      bodyClass.toList))))) ([identLeaf "u".toList] ++ ([.leaf ⟨.whitespace " ", [' ']⟩] ++
        ([.leaf ⟨.delim '+', ['+']⟩] ++ ([.leaf ⟨.whitespace " ", [' ']⟩] ++
          ([.leaf ⟨.delim '.', ['.']⟩] ++ [identLeaf bodyClass.toList]))))) := by
    refine (spells_ident (by decide)).append (spells_space.append (spells_plus.append
      (spells_space.append (spells_point.append (spells_identifier h) ?_) ?_) ?_) ?_) ?_
    · rintro r rfl
      rwa [List.append_nil]
    · rintro r - c ⟨⟩
      decide
    · rintro r - c ⟨⟩
      decide
    · rintro r - c ⟨⟩
      decide
    · exact fun r _ => endsIdents_cons (by decide) (by decide) _
  have htext : ("u + ." ++ bodyClass).toList = "u".toList ++ ([' '] ++ (['+'] ++ ([' '] ++ (['.'] ++
      bodyClass.toList)))) := by simp
  rw [SelectorList.parse, SelectorList.read, htext, hspells.ofText_eq rfl]
  rfl

/-- A body element with a class that begins like those of a client and goes on with what a text in
quotes means. -/
theorem parse_body {bodyClass : String} (h : IsQuotable bodyClass.toList) :
    SelectorList.parse ("body[class~=\"aolmail_" ++ bodyClass ++ "\"]") =
      .ok ⟨[⟨[.tag "body", .attribute ⟨none, "class", some
        ⟨.includes, "aolmail_" ++ String.ofList (unescapeString bodyClass.toList), none⟩⟩]⟩]⟩ := by
  let value := unescapeString ("aolmail_".toList ++ bodyClass.toList)
  let quoted := '"' :: ("aolmail_".toList ++ bodyClass.toList ++ ['"'])
  have hfront : Spans endsString "aolmail_".toList := by decide
  have hstring : Spells Anything quoted [.leaf ⟨.string (String.ofList value), quoted⟩] := by
    refine ⟨_, .leaf rfl rfl .nil, fun r _ => ?_⟩
    simpa [quoted, value] using lexemes_quoted (h.append hfront) r
  have hclass : Spells EndsIdents "class".toList [identLeaf "class".toList] :=
    spells_ident (by decide)
  have hmatcher : Spells Anything ['~', '='] [.leaf ⟨.includeMatch, ['~', '=']⟩] :=
    spells_matcher rfl
  have hinner := hclass.append (hmatcher.append hstring fun _ _ => trivial) fun r _ =>
    endsIdents_cons (by decide) (by decide) _
  have hgroup := spells_group (x := ⟨.squareOpen, ['[']⟩) (y := ⟨.squareClose, [']']⟩) (v := ['['])
    rfl (fun r => lexemes_cons_of_scan rfl) hinner (fun _ => trivial)
    (fun r => lexemes_cons_of_scan rfl)
  have hbody : Spells EndsIdents "body".toList [identLeaf "body".toList] := spells_ident (by decide)
  have hall := hbody.append hgroup fun r _ => endsIdents_cons (by decide) (by decide) _
  have hvalue : String.ofList value =
      "aolmail_" ++ String.ofList (unescapeString bodyClass.toList) := by
    have happend : value = "aolmail_".toList ++ unescapeString bodyClass.toList :=
      unescapeFrom_append hfront.closed bodyClass.toList
    rw [happend, String.ofList_append, String.ofList_toList]
  have htext : ("body[class~=\"aolmail_" ++ bodyClass ++ "\"]").toList = "body".toList ++
      (['['] ++ ("class".toList ++ (['~', '='] ++ quoted) ++ [']'])) := by simp [quoted]
  rw [SelectorList.parse, SelectorList.read, htext, hall.ofText_eq trivial, ← hvalue]
  rfl

/-- What a client puts in the place of the body element is read as a replacement. -/
theorem exists_isReplacement {client : Client} {bodyClass replacement : String}
    (hclient : client.conversion bodyClass = .retargetBody replacement)
    (h : IsIdentifier bodyClass.toList) :
    ∃ front, SelectorList.parse replacement = .ok front ∧ Chain.IsReplacement front.firstChain := by
  cases client with
  | gmail =>
    cases hclient
    refine ⟨_, parse_sibling h, .sibling ?_⟩
    simpa using h.unescape_ne_nil
  | aol =>
    cases hclient
    exact ⟨_, parse_body h.isQuotable, .body (by simp) rfl⟩
  | _ => cases hclient

/-! ## Selector lists -/

/-- What an edit makes of chains, if it is read or broken for each of them, is read as a list of as
many selectors if it is read for all of them, and only then. -/
theorem SelectorList.parse_ofChains_iff {cs : List Chain} (hne : cs ≠ []) {edit : Chain → Chain}
    {p : Chain → Prop} (hp : ∀ c ∈ cs, (p c → WrittenSelector {} ((edit c).textFrom true)) ∧
      (¬ p c → BrokenSelector {} ((edit c).textFrom true))) :
    (∃ l, parse (ofChains (cs.map edit)).print = .ok l ∧ l.chains.length = cs.length) ↔
      ∀ c ∈ cs, p c := by
  obtain ⟨c, cs, rfl⟩ := List.exists_cons_of_ne_nil hne
  let written (c : Chain) := (edit c).textFrom true
  have htext : (ofChains ((c :: cs).map edit)).print.toList =
      joinTexts ", ".toList (written c :: cs.map written) := by
    rw [print, String.toList_ofList, text, ofChains, List.map_map, List.map_map]
    rfl
  have hmem {v : List Char} (hv : v ∈ written c :: cs.map written) : ∃ d ∈ c :: cs, written d = v := by
    rw [← List.map_cons (f := written)] at hv
    exact List.mem_map.1 hv
  constructor
  · rintro ⟨l, hl, -⟩
    by_contra hnone
    push Not at hnone
    obtain ⟨d, hd, hbroken⟩ := hnone
    -- A broken text keeps its place between the commas, and one of them refuses the list.
    refine read_joinTexts_of_breaks _ _ ?_ ⟨written d, ?_, (hp d hd).2 hbroken⟩ l
      (htext ▸ read_of_parse hl)
    · intro v hv
      obtain ⟨e, he, rfl⟩ := hmem hv
      by_cases hpe : p e
      · exact .inl ((hp e he).1 hpe)
      · exact .inr ((hp e he).2 hpe)
    · rw [← List.map_cons (f := written)]
      exact List.mem_map_of_mem hd
  · intro hall
    obtain ⟨l, hl, hlen⟩ := read_joinTexts (written c) (cs.map written) <| by
      intro v hv
      obtain ⟨e, he, rfl⟩ := hmem hv
      exact (hp e he).1 (hall e he)
    refine ⟨l, ?_, ?_⟩
    · rw [parse, htext, hl]
      rfl
    · simpa [chains] using hlen

namespace Adapt

/-- What a client with a replacement for the body element makes of a selector list is read as a
list of as many selectors if the front of each anchor admits a type selector, and only then. This
holds as far as the components of the selectors are faithful and no namespace is left without its
star. -/
theorem retargetBody_parses_iff {client : Client} {bodyClass replacement s t : String}
    (hclient : client.conversion bodyClass = .retargetBody replacement)
    (hident : IsIdentifier bodyClass.toList)
    (h : retargetBody bodyClass replacement s = .ok t) :
    ∃ l front, SelectorList.parse s = .ok l ∧ SelectorList.parse replacement = .ok front ∧
      ((∀ chain ∈ l.chains, allFaithful chain = true ∧
          (Chain.retarget bodyClass front.firstChain chain).strandsBehind = false) →
        ((∃ l', SelectorList.parse t = .ok l' ∧ l'.chains.length = l.chains.length) ↔
          ∀ chain ∈ l.chains, chain.admitsReplacement bodyClass = true)) := by
  obtain ⟨front, hfront, hnew⟩ := exists_isReplacement hclient hident
  obtain ⟨l, front', hl, hfront', rfl⟩ := withFirstChain_eq_ok_iff.1 h
  obtain rfl : front = front' := Except.ok.inj (hfront.symm.trans hfront')
  have hl' := SelectorList.read_of_parse hl
  refine ⟨l, front, hl, hfront, fun hchains => ?_⟩
  refine SelectorList.parse_ofChains_iff (SelectorList.chains_ne_nil hl') fun chain hchain => ?_
  obtain ⟨hfaithful, hbehind⟩ := hchains chain hchain
  obtain ⟨hread, horigin⟩ := SelectorList.isRead_of_read hl' chain hchain
  obtain ⟨hwritten, hbroken⟩ :=
    hread.retarget hnew (Chain.isLegible_of_allFaithful horigin hfaithful) hbehind
  exact ⟨hwritten, fun hrefuses => hbroken (by simpa using hrefuses)⟩

/-- A class in front of the anchor, which the replacement goes on with, and a selector without
anchor. -/
theorem retargetBody_parses_glued :
    let s := ".dark.body .a, p:not(.x)::before"
    let t := ".darku + .body .a, u + .body p:not(.x):before"
    Client.gmail.conversion "body" = .retargetBody "u + .body" ∧ IsIdentifier "body".toList ∧
      retargetBody "body" "u + .body" s = .ok t ∧
      ∃ l', SelectorList.parse t = .ok l' ∧ l'.chains.length = 2 := by
  intro s t
  have hconversion : Client.gmail.conversion "body" = .retargetBody "u + .body" := rfl
  have hident : IsIdentifier "body".toList := by decide +kernel
  have hok : retargetBody "body" "u + .body" s = .ok t := by decide +kernel
  have hchains : (do
      let l ← SelectorList.parse s
      let front ← SelectorList.parse "u + .body"
      return l.chains.length == 2 && l.chains.all fun chain : Chain =>
        (allFaithful chain && !(Chain.retarget "body" front.firstChain chain).strandsBehind) &&
          chain.admitsReplacement "body") = .ok true := by decide +kernel
  obtain ⟨l, front, hl, hfront, hparses⟩ := retargetBody_parses_iff hconversion hident hok
  rw [hl, hfront] at hchains
  have hall := Except.ok.inj hchains
  simp only [Bool.and_eq_true, beq_iff_eq, List.all_eq_true, Bool.not_eq_true'] at hall
  obtain ⟨hlen, hall⟩ := hall
  refine ⟨hconversion, hident, hok, ?_⟩
  rw [← hlen]
  exact (hparses fun chain hchain => (hall chain hchain).1).2 fun chain hchain =>
    (hall chain hchain).2

-- What is not read again: an anchor behind an attribute, a namespace behind the nesting selector
-- without its star, and one input for each way in which a component can be lossy.
example : Client.gmail.conversion "body" = .retargetBody "u + .body" ∧
    ∀ p ∈ [("[x].body", "[x]u + .body"), ("&n|* p", "u + .body &n| p"),
      (":\\31 x", "u + .body :1x"), (":lang('')", "u + .body :lang()"),
      (":foo(<!\\--url(a b))", "u + .body :foo(<!--url(a b))"),
      (":nth-col(1)", "u + .body :nth-col("), (".x:is(&a)", "u + .body .x&a")],
      retargetBody "body" "u + .body" p.1 = .ok p.2 ∧ (SelectorList.parse p.2).isOk = false := by
  decide +kernel

end Adapt

end MailCss
