import MailCss.Proofs.Selector.Origins
import MailCss.Proofs.Selector.Retarget

/-!
# The class that stands for the body element

The name of this class is used in two ways. Selectors are searched for a class that has this name,
whatever its characters are. In what a client puts in the place of the body element, the name is
part of a text that is read, so that it has to be an identifier there, or a text in quotes, and
stands for what its escapes mean.

Main statement: `Client.conversion_inserts_iff`.
-/

namespace MailCss

open Css

namespace Conversion

/-- The chains of the text that a client puts in the place of the body element, where that text is
a selector list. -/
def replacementChains? : Conversion → Option (List Chain)
  | .retargetBody replacement => (SelectorList.parse replacement).toOption.map SelectorList.chains
  | .media _ | .wrap _ => none

/-- Whether something of a kind is put in the place of the body element. -/
def inserts (p : Component → Bool) (c : Conversion) : Bool :=
  c.replacementChains?.any fun chains => chains.any fun chain => chain.any p

theorem inserts_retargetBody_iff {p : Component → Bool} {replacement : String} :
    (retargetBody replacement).inserts p = true ↔
      ∃ l, SelectorList.parse replacement = .ok l ∧ ∃ chain ∈ l.chains, ∃ c ∈ chain, p c = true := by
  simp only [inserts, replacementChains?]
  cases SelectorList.parse replacement with
  | error e => simp [Except.toOption]
  | ok l => simp [Except.toOption]

end Conversion

/-- Whether a component compares an attribute with a value. -/
def Component.hasValue (value : String) : Component → Bool
  | .attribute a => a.test.any (·.value == value)
  | _ => false

/-- A text in which every character stands for itself, in a name as in a string. -/
def IsLiteral (s : List Char) : Prop := ∀ c ∈ s, c ≠ '\\' ∧ c ≠ '\x00'

instance (s : List Char) : Decidable (IsLiteral s) :=
  decidable_of_iff (s.all (fun c => c ≠ '\\' && c ≠ '\x00') = true) (by simp [IsLiteral])

/-- A text that is put in quotes and is what is read from them has nothing in it that ends a string
and no escapes. -/
theorem isQuotable_of_unescapeString_eq {v : List Char}
    (h : unescapeString (escapedSpan endsString .outside (v ++ ['"', ']'])).1 = v) :
    IsQuotable v ∧ IsLiteral v := by
  have hself (h : unescapeString v = v) : IsLiteral v := unescapeString_eq_self_iff.1 h
  by_cases hwhole : (escapedSpan endsString .outside v).2 = []
  · rw [escapedSpan_append_run (fun _ _ _ => rfl) hwhole] at h
    by_cases hopened : Escape.outside.run v = .opened
    · -- The quote behind a backslash is kept and so is the bracket, which `v` then ends with.
      rw [hopened] at h
      have hrun : Escape.outside.run (v ++ ['"']) = .outside := by
        rw [Escape.run_append, hopened]
        rfl
      have hbracket : unescapeString (v ++ ['"', ']']) = unescapeString (v ++ ['"']) ++ [']'] := by
        rw [List.append_cons v '"' [']']]
        exact unescapeFrom_append hrun [']']
      have hlast : v = unescapeString (v ++ ['"']) ++ [']'] := h.symm.trans hbracket
      rw [hlast, Escape.run_append] at hopened
      exact absurd (Escape.next_eq_opened.1 hopened).1 (by decide)
    · have hclaims := Escape.claims_eq_none hopened (c := '"') rfl rfl
      have hstop : (escapedSpan endsString (Escape.outside.run v) ['"', ']']).1 = [] := by
        rw [escapedSpan, hclaims]
        rfl
      rw [hstop, List.append_nil] at h
      exact ⟨⟨hwhole, hopened⟩, hself h⟩
  · -- A string that ends inside `v` has too few characters to mean all of it.
    rw [escapedSpan_append_of_ne_nil (fun _ _ _ => rfl) hwhole] at h
    have hle := length_unescapeString_le (escapedSpan endsString .outside v).1
    have hsplit := congrArg List.length (escapedSpan_append endsString .outside v)
    have hpos := List.length_pos_iff.2 hwhole
    rw [List.length_append] at hsplit
    rw [h] at hle
    omega

/-! ## Names that are found again -/

/-- Where a class of a selector next to a `u` element has the name that was put into its text, that
name is an identifier without escapes. -/
theorem isIdentifier_of_mem_sibling {name : String} {l : SelectorList} {chain : Chain}
    (h : SelectorList.parse ("u + ." ++ name) = .ok l) (hchain : chain ∈ l.chains)
    (hclass : .className name ∈ chain) : IsIdentifier name.toList ∧ IsLiteral name.toList := by
  obtain ⟨x, hx, hident⟩ := SelectorList.quotes_of_parse h chain hchain _ hclass
  obtain ⟨c, r, hsuffix, rfl⟩ := exists_suffix_of_mem_lexemes hx
  have htext : ("u + ." ++ name).toList = 'u' :: ' ' :: '+' :: ' ' :: '.' :: name.toList := by simp
  have hbegins := (startsIdent_of_scan_ident hident).1
  simp only [htext, List.suffix_cons_iff, List.cons.injEq] at hsuffix
  -- The only identifier in front of the name is `u`; any other one begins inside the name.
  rcases hsuffix with ⟨rfl, rfl⟩ | ⟨rfl, rfl⟩ | ⟨rfl, rfl⟩ | ⟨rfl, rfl⟩ | ⟨rfl, rfl⟩ | hsuffix
  · have hu : "u" = name := Css.Token.ident.inj hident
    rw [← hu]
    decide
  · cases hbegins
  · cases hbegins
  · cases hbegins
  · cases hbegins
  · exact isIdentifier_of_scan hsuffix (by rw [hident, String.ofList_toList])

/-- The lexemes of the text of AOL up to the name in quotes. -/
theorem lexemes_body (s : List Char) :
    lexemes ("body[class~=\"aolmail_".toList ++ s) =
      ⟨.ident "body", "body".toList⟩ :: ⟨.squareOpen, ['[']⟩ :: ⟨.ident "class", "class".toList⟩ ::
        ⟨.includeMatch, ['~', '=']⟩ :: lexemes ('"' :: ("aolmail_".toList ++ s)) := by
  rfl

/-- Where the value of an attribute of the text of AOL has the name that was put into that text, the
name can stand in quotes and has no escapes. -/
theorem isQuotable_of_mem_body {name : String} {l : SelectorList} {chain : Chain} {a : Attribute}
    {test : AttributeTest}
    (h : SelectorList.parse ("body[class~=\"aolmail_" ++ name ++ "\"]") = .ok l)
    (hchain : chain ∈ l.chains) (ha : .attribute a ∈ chain) (htest : test ∈ a.test)
    (hvalue : test.value = "aolmail_" ++ name) : IsQuotable name.toList ∧ IsLiteral name.toList := by
  obtain ⟨x, hx, hxtext⟩ := SelectorList.quotes_of_parse h chain hchain _ ha test htest
  let behind := name.toList ++ ['"', ']']
  have htext : ("body[class~=\"aolmail_" ++ name ++ "\"]").toList =
      "body[class~=\"aolmail_".toList ++ behind := by simp [behind]
  have hfront : Spans endsString "aolmail_".toList := by decide
  have hspan := hfront.escapedSpan_append (r := behind) fun _ _ => rfl
  have hends : (fun (c : Char) (_ : List Char) => decide (c = '"') || isNewline c) = endsString :=
    rfl
  have hbehind : behind.length = name.toList.length + 2 := by simp [behind]
  have hlong : name.toList.length + 8 ≤ x.source.length := by
    have hle := (isRead_of_mem_lexemes hx).length_text?_le hxtext
    rw [hvalue, String.toList_append, List.length_append] at hle
    exact (Nat.add_comm _ _).trans_le hle
  have hscan : scan '"' ("aolmail_".toList ++ behind) =
      scanString '"' ("aolmail_".toList ++ behind) := rfl
  rw [htext, lexemes_body, lexemes_cons, hscan] at hx
  simp only [List.mem_cons] at hx
  -- What is in front of the string is too short for the value, or no text at all.
  rcases hx with rfl | rfl | rfl | rfl | rfl | hx
  · have hfour : name.toList.length + 8 ≤ 4 := hlong
    omega
  · cases hxtext
  · have hfive : name.toList.length + 8 ≤ 5 := hlong
    omega
  · cases hxtext
  · have hmeaning := scanString_text? hxtext
    have hmeans : unescapeString ("aolmail_".toList ++ (escapedSpan endsString .outside behind).1) =
        "aolmail_".toList ++ unescapeString (escapedSpan endsString .outside behind).1 :=
      unescapeFrom_append hfront.closed _
    rw [hvalue, hends, hspan, hmeans, String.ofList_append, String.ofList_toList,
      String.append_right_inj] at hmeaning
    refine isQuotable_of_unescapeString_eq ?_
    show unescapeString (escapedSpan endsString .outside behind).1 = name.toList
    rw [congrArg String.toList hmeaning, String.toList_ofList]
  · -- What is left behind the string is too short for the name with what is in front of it.
    have hsource := length_source_le_of_mem hx
    have hlt := length_span_lt_scanString '"' ("aolmail_".toList ++ behind)
    have hfrontLength : "aolmail_".toList.length = 8 := rfl
    rw [hends, hspan, List.length_append] at hlt
    rw [List.length_drop, List.length_cons, List.length_append] at hsource
    omega

/-! ## Both uses of the name -/

/-- Every name but the empty one and those with NUL can be written as a class. -/
theorem parse_className {name : String} (hne : name ≠ "") (hnul : '\x00' ∉ name.toList) :
    SelectorList.parse ("." ++ String.ofList (Written.ident name.toList)) =
      .ok ⟨[⟨[.className name]⟩]⟩ := by
  have hident : IsIdent (Written.ident name.toList) := isIdent_ident (by simpa using hne)
  have hspells : Spells EndsIdents (['.'] ++ Written.ident name.toList)
      ([.leaf ⟨.delim '.', ['.']⟩] ++ [identLeaf (Written.ident name.toList)]) :=
    spells_point.append (spells_ident hident) fun r _ => beginsNoDigit_append hident r
  have htext : ("." ++ String.ofList (Written.ident name.toList)).toList =
      ['.'] ++ Written.ident name.toList := by simp
  have hmeaning : String.ofList (unescape (Written.ident name.toList)) = name := by
    have hliteral : name.toList.map literal = name.toList.map id := by
      refine List.map_congr_left fun c hc => if_neg ?_
      rintro rfl
      exact hnul hc
    rw [Written.unescape_ident, hliteral, List.map_id, String.ofList_toList]
  rw [SelectorList.parse, SelectorList.read, htext, hspells.ofText_eq endsIdents_nil, identLeaf,
    hmeaning]
  rfl

/-- A selector that is the class which stands for the body element is replaced, whatever its name. -/
theorem Adapt.retargetBody_className {name replacement : String} {front : SelectorList}
    (hne : name ≠ "") (hnul : '\x00' ∉ name.toList)
    (h : SelectorList.parse replacement = .ok front) :
    retargetBody name replacement ("." ++ String.ofList (Written.ident name.toList)) =
      .ok (SelectorList.ofChains [front.firstChain]).print := by
  have hretarget : Chain.retarget name front.firstChain [.className name] = front.firstChain := by
    simp [Chain.retarget, Chain.replaceAt, Chain.splice, Component.isAnchor, Component.isBodyClass]
  refine withFirstChain_eq_ok_iff.2 ⟨_, front, parse_className hne hnul, h, ?_⟩
  show (SelectorList.ofChains [Chain.retarget name front.firstChain [.className name]]).print = _
  rw [hretarget]

/-- The class that stands for the body element is found under any name. What Gmail and AOL get for
it is named by what the name means as an identifier or in quotes. So both get the name itself for
the names that are identifiers, or can stand in quotes, without escapes, and for no others. -/
theorem Client.conversion_inserts_iff (name : String) :
    (name ≠ "" → '\x00' ∉ name.toList → ∀ replacement front,
      SelectorList.parse replacement = .ok front →
        Adapt.retargetBody name replacement ("." ++ String.ofList (Written.ident name.toList)) =
          .ok (SelectorList.ofChains [front.firstChain]).print) ∧
    (IsIdentifier name.toList → (Client.gmail.conversion name).replacementChains? =
      some [[.tag "u", .combinator .nextSibling,
        .className (String.ofList (unescape name.toList))]]) ∧
    ((Client.gmail.conversion name).inserts (Component.isBodyClass name) = true ↔
      IsIdentifier name.toList ∧ IsLiteral name.toList) ∧
    (IsQuotable name.toList → (Client.aol.conversion name).replacementChains? =
      some [[.tag "body", .attribute ⟨none, "class", some ⟨.includes,
        "aolmail_" ++ String.ofList (unescapeString name.toList), none⟩⟩]]) ∧
    ((Client.aol.conversion name).inserts (Component.hasValue ("aolmail_" ++ name)) = true ↔
      IsQuotable name.toList ∧ IsLiteral name.toList) := by
  have hgmail : IsIdentifier name.toList → (Client.gmail.conversion name).replacementChains? =
      some [[.tag "u", .combinator .nextSibling,
        .className (String.ofList (unescape name.toList))]] := by
    intro h
    simp only [conversion, Conversion.replacementChains?, parse_sibling h]
    rfl
  have haol : IsQuotable name.toList → (Client.aol.conversion name).replacementChains? =
      some [[.tag "body", .attribute ⟨none, "class", some ⟨.includes,
        "aolmail_" ++ String.ofList (unescapeString name.toList), none⟩⟩]] := by
    intro h
    simp only [conversion, Conversion.replacementChains?, parse_body h]
    rfl
  refine ⟨fun hne hnul replacement front hfront => Adapt.retargetBody_className hne hnul hfront,
    hgmail, ?_, haol, ?_⟩
  · constructor
    · intro h
      obtain ⟨l, hl, chain, hchain, c, hc, hclass⟩ := Conversion.inserts_retargetBody_iff.1 h
      unfold Component.isBodyClass at hclass
      split at hclass
      · obtain rfl := eq_of_beq hclass
        exact isIdentifier_of_mem_sibling hl hchain hc
      · cases hclass
    · rintro ⟨hident, hliteral⟩
      have hself := unescape_eq_self_iff.2 hliteral
      simp [Conversion.inserts, hgmail hident, hself, Component.isBodyClass]
  · constructor
    · intro h
      obtain ⟨l, hl, chain, hchain, c, hc, hvalue⟩ := Conversion.inserts_retargetBody_iff.1 h
      unfold Component.hasValue at hvalue
      split at hvalue
      · rename_i a
        obtain ⟨test, htest, hvalue⟩ := (Option.any_eq_true _ _).1 hvalue
        exact isQuotable_of_mem_body hl hchain hc htest (eq_of_beq hvalue)
      · cases hvalue
    · rintro ⟨hquotable, hliteral⟩
      have hself := unescapeString_eq_self_iff.2 hliteral
      simp [Conversion.inserts, haol hquotable, hself, Component.hasValue]

/-- A name that is an identifier with an escape, for which Gmail gets the class without it, and a
name that would need one, so that its class is found and another one put in its place. -/
theorem Client.conversion_inserts_iff_colon :
    let name := "md\\:body"
    name ≠ "" ∧ '\x00' ∉ name.toList ∧ IsIdentifier name.toList ∧ IsQuotable name.toList ∧
      (Client.gmail.conversion name).replacementChains? =
        some [[.tag "u", .combinator .nextSibling, .className "md:body"]] ∧
      (Client.gmail.conversion name).inserts (Component.isBodyClass name) = false ∧
      (Client.aol.conversion name).replacementChains? = some [[.tag "body",
        .attribute ⟨none, "class", some ⟨.includes, "aolmail_md:body", none⟩⟩]] ∧
      Adapt.retargetBody "md:body" "u + .md:body" ".md\\:body" = .ok "u + .md:body" ∧
      (Client.gmail.conversion "md:body").inserts (Component.isBodyClass "md:body") = false := by
  intro name
  have hident : IsIdentifier name.toList := by decide
  have hquotable : IsQuotable name.toList := by decide
  have hliteral : ¬ IsLiteral name.toList := by decide
  have hcolon : ¬ IsIdentifier "md:body".toList := by decide
  have hmeaning : String.ofList (unescape name.toList) = "md:body" := by decide
  have hquoted : "aolmail_" ++ String.ofList (unescapeString name.toList) = "aolmail_md:body" := by
    decide
  have hwritten : "." ++ String.ofList (Written.ident "md:body".toList) = ".md\\:body" := by
    decide
  obtain ⟨-, hgmail, hfound, haol, -⟩ := conversion_inserts_iff name
  rw [hmeaning] at hgmail
  rw [hquoted] at haol
  obtain ⟨hreplaced, -, hfound', -⟩ := conversion_inserts_iff "md:body"
  have hprints : (SelectorList.parse "u + .md:body").toOption.map (fun front =>
      (SelectorList.ofChains [front.firstChain]).print) = some "u + .md:body" := by
    decide +kernel
  have hpasted : Adapt.retargetBody "md:body" "u + .md:body" ".md\\:body" = .ok "u + .md:body" := by
    cases hfront : SelectorList.parse "u + .md:body" with
    | error e =>
      rw [hfront] at hprints
      cases hprints
    | ok front =>
      rw [hfront] at hprints
      rw [← hwritten, hreplaced (by decide) (by decide) _ front hfront]
      exact congrArg Except.ok (Option.some.inj hprints)
  exact ⟨by decide, by decide, hident, hquotable, hgmail hident,
    Bool.eq_false_iff.2 fun h => hliteral (hfound.1 h).2, haol hquotable, hpasted,
    Bool.eq_false_iff.2 fun h => hcolon (hfound'.1 h).1⟩

end MailCss
