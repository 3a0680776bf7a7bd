import MailCss.Proofs.Selector.Spelled

/-!
# Attribute selectors are read back

What is written for an attribute selector whose names are not empty is read as one.
-/

namespace MailCss

open Css (Token TokenTree Lexeme Spells EndsIdents Anything IsIdent identLeaf)

/-- Whether a namespace, if it has a label, has one that can be written. -/
def Namespace.isNamed : Namespace → Bool
  | .named label => label ≠ ""
  | _ => true

theorem isIdent_identText {name : String} (h : name ≠ "") : IsIdent (identText name) :=
  Css.isIdent_ident fun hnil => h (String.toList_eq_nil_iff.1 hnil)

theorem endsIdents_cons {c : Char} (hname : Css.inName c = false)
    (hmark : c ∉ ['\\', '\n', '\r', '\x0c', '(', '>']) (r : List Char) : EndsIdents (c :: r) := by
  simp only [List.mem_cons, not_or] at hmark
  refine ⟨?_, ?_⟩
  · rintro d ⟨⟩
    simp [hname, hmark]
  · rintro d ⟨⟩
    exact ⟨hmark.2.2.2.2.1, hmark.2.2.2.2.2.1⟩

theorem beginsWithout_equals_append {w : List Char} (hw : IsIdent w) (r : List Char) :
    Css.BeginsWithout '=' (w ++ r) := by
  obtain ⟨c, v, rfl⟩ := List.exists_cons_of_ne_nil hw.ne_nil
  have hc := Css.ne_of_startsFront (Css.startsName_of_startsIdent hw.starts) (d := '=') rfl
    (by decide)
  simpa [Css.BeginsWithout] using hc

namespace Attribute

/-- What is written for a name with a namespace. -/
theorem spells_name (q : Option Namespace) {name : String} (hq : q.all Namespace.isNamed = true)
    (hname : name ≠ "") :
    ∃ ts, Spells EndsIdents (q.elim [] Namespace.text ++ identText name) ts ∧
      (∀ t ∈ ts.head?, t.token.isSkipped = false) ∧ ts ≠ [] ∧
      ∃ p, ∀ rest, (∀ t ∈ (dropComments rest).head?, isBar t = false) →
        readName (Item.ofTrees ts ++ rest) = .ok (p, rest) := by
  have hident := isIdent_identText hname
  have hspells := Css.spells_ident hident
  have hbar (r : List Char) : Css.BeginsWithout '=' (identText name ++ r) :=
    beginsWithout_equals_append hident r
  -- Only without a namespace what follows matters: a bar would make a namespace of the name.
  rcases q with _ | (_ | _ | label)
  · refine ⟨_, hspells, ?_, by simp, ?_⟩
    · rintro t ⟨⟩
      rfl
    · refine ⟨(none, String.ofList (Css.unescape (identText name))), fun rest hrest => ?_⟩
      have hdrop : dropComments (Item.ofTrees [identLeaf (identText name)] ++ rest) =
          Item.ofTree (identLeaf (identText name)) :: rest := dropComments_cons rfl _
      rw [readName, hdrop]
      simp only [Item.token_ofTree, Css.token_identLeaf]
      split
      · rename_i u r hu
        rw [hu] at hrest
        rw [if_neg (by simpa using hrest u rfl)]
      · rfl
  · refine ⟨_, (Css.spells_star.append Css.spells_bar fun r _ => by simp [Css.BeginsWithout]).append
      hspells fun r _ => hbar r, ?_, by simp, ?_⟩
    · rintro t ⟨⟩
      rfl
    · exact ⟨_, fun rest _ => rfl⟩
  · refine ⟨_, Css.spells_bar.append hspells fun r _ => hbar r, ?_, by simp, ?_⟩
    · rintro t ⟨⟩
      rfl
    · exact ⟨_, fun rest _ => rfl⟩
  · have hlabel : IsIdent (identText label) := isIdent_identText (by simpa [Namespace.isNamed] using hq)
    refine ⟨_, ((Css.spells_ident hlabel).append Css.spells_bar fun r _ =>
      endsIdents_cons (by decide) (by decide) r).append hspells fun r _ => hbar r, ?_, by simp, ?_⟩
    · rintro t ⟨⟩
      rfl
    · exact ⟨_, fun rest _ => rfl⟩

/-- What is written for a comparison. -/
theorem spells_comparison (c : Comparison) :
    ∃ x, Spells Anything c.text [.leaf ⟨x, c.text⟩] ∧ comparison? x = some c := by
  cases c with
  | equal => exact ⟨_, Css.spells_equals, rfl⟩
  | _ => exact ⟨_, Css.spells_matcher rfl, rfl⟩

/-- What is written for a case flag. -/
theorem spells_flag (flag : Option CaseFlag) :
    ∃ ts, Spells EndsIdents (flag.elim [] CaseFlag.text) ts ∧
      readFlag (Item.ofTrees ts) = .ok (flag, []) := by
  rcases flag with _ | flag
  · exact ⟨[], .nil, rfl⟩
  · obtain ⟨c, htext, hident, hc⟩ : ∃ c, flag.text = ' ' :: [c] ∧ IsIdent [c] ∧
        flag? (String.ofList (Css.unescape [c])) = some flag := by
      cases flag
      · exact ⟨'i', rfl, by decide, by decide +kernel⟩
      · exact ⟨'s', rfl, by decide, by decide +kernel⟩
    refine ⟨[.leaf ⟨.whitespace " ", [' ']⟩, identLeaf [c]], ?_, ?_⟩
    · rw [Option.elim_some, htext]
      refine Css.spells_space.append (Css.spells_ident hident) fun r _ => ?_
      rintro d ⟨⟩
      exact (hident.head c rfl).2
    · simp [readFlag, Item.ofTrees, dropSkipped, Item.isSkipped, Token.isSkipped, hc]

/-- What is written for what an attribute's value must be. -/
theorem spells_test (test : Option AttributeTest) :
    ∃ ts, Spells EndsIdents (test.elim [] AttributeTest.text) ts ∧
      (∀ r, EndsIdents r → EndsIdents (test.elim [] AttributeTest.text ++ r)) ∧
      (∀ t ∈ (dropComments (Item.ofTrees ts)).head?, isBar t = false) ∧
      ∃ test', readTest (Item.ofTrees ts) = .ok (test', []) := by
  rcases test with _ | ⟨comparison, value, flag⟩
  · refine ⟨[], .nil, fun r hr => hr, ?_, none, rfl⟩
    rintro t ⟨⟩
  · obtain ⟨x, hcomparison, hx⟩ := spells_comparison comparison
    obtain ⟨v, hvalue⟩ := Css.spells_string value.toList
    obtain ⟨us, hflag, hreadFlag⟩ := spells_flag flag
    have hskipped : x.isSkipped = false ∧ x.isComment = false ∧ x ≠ .delim '|' := by
      unfold comparison? at hx
      split at hx <;> simp_all [Token.isSkipped, Token.isComment]
    refine ⟨_, (hcomparison.append hvalue fun _ _ => trivial).append hflag fun _ _ => trivial,
      ?_, ?_, some ⟨comparison, v, flag⟩, ?_⟩
    · intro r _
      cases comparison <;> exact endsIdents_cons (by decide) (by decide) _
    · intro t ht
      simp only [Item.ofTrees_append, Item.ofTrees, List.singleton_append] at ht
      rw [List.cons_append, dropComments_cons (by simp [Item.isComment, hskipped])] at ht
      cases ht
      simp [isBar, hskipped]
    · have hfront : (Item.ofTree (.leaf ⟨x, comparison.text⟩)).isSkipped = false := by
        simp [Item.isSkipped, hskipped]
      have hstring (w : List Char) : (Item.ofTree (.leaf ⟨.string v, w⟩)).isSkipped = false := rfl
      have hflag' : (fun p : Option CaseFlag × List Item =>
          (some (⟨comparison, v, p.1⟩ : AttributeTest), p.2)) <$> readFlag (Item.ofTrees us) =
          .ok (some ⟨comparison, v, flag⟩, []) := by
        rw [hreadFlag]
        rfl
      simp only [Item.ofTrees, readTest, dropSkipped, List.cons_append, List.nil_append,
        List.dropWhile_cons, hfront, hstring, Bool.false_eq_true, if_false, Item.token_ofTree,
        Css.TokenTree.token_leaf, hx, readValue, readIdentOrString]
      exact hflag'

/-- What is written for an attribute selector between its brackets. -/
theorem spells_inner (a : Attribute) (hq : a.qualifier.all Namespace.isNamed = true)
    (hname : a.name ≠ "") :
    ∃ ts, Spells EndsIdents (a.qualifier.elim [] Namespace.text ++ identText a.name ++
        a.test.elim [] AttributeTest.text) ts ∧ ∃ a', read (Item.ofTrees ts) = .ok a' := by
  obtain ⟨ts, hts, hhead, hne, p, hreadName⟩ := spells_name a.qualifier hq hname
  obtain ⟨us, hus, hends, hbar, test, hreadTest⟩ := spells_test a.test
  refine ⟨ts ++ us, hts.append hus hends, ⟨keptNamespace p.1, p.2, test⟩, ?_⟩
  have hdrop : dropSkipped (Item.ofTrees ts ++ Item.ofTrees us) =
      Item.ofTrees ts ++ Item.ofTrees us := by
    obtain ⟨t, ts, rfl⟩ := List.exists_cons_of_ne_nil hne
    have ht : (Item.ofTree t).isSkipped = false := by
      rw [Item.isSkipped, Item.token_ofTree]
      exact hhead t rfl
    simp [dropSkipped, Item.ofTrees, ht]
  rw [read, Item.ofTrees_append, hdrop, hreadName _ hbar]
  show (readTest (Item.ofTrees us)).bind _ = _
  rw [hreadTest]
  rfl

end Attribute

/-- What is written for an attribute selector is read as one. -/
theorem spelledSimples_attribute {f : Flags} (a : Attribute)
    (hq : a.qualifier.all Namespace.isNamed = true) (hname : a.name ≠ "")
    (hf : f.afterAny = false) :
    ∃ inner, SpelledSimples Anything f a.text
      [.group ⟨.squareOpen, ['[']⟩ inner [']']] f := by
  obtain ⟨ts, hts, a', hread⟩ := Attribute.spells_inner a hq hname
  refine ⟨ts, ?_⟩
  have hspells : Spells Anything (['['] ++ (_ ++ [']'])) [.group ⟨.squareOpen, ['[']⟩ ts [']']] :=
    Css.spells_group (y := ⟨.squareClose, [']']⟩) rfl
      (fun r => Css.lexemes_cons_of_scan rfl) hts
      (fun r => endsIdents_cons (by decide) (by decide) r)
      (fun r => Css.lexemes_cons_of_scan rfl)
  have hs : SimpleAt f (Item.ofTrees [.group ⟨.squareOpen, ['[']⟩ ts [']']])
      { components := [.attribute a'] } [] := by
    refine .brackets (dropComments_cons rfl _) rfl hf ?_
    show (Attribute.read (Item.ofTrees ts)).map _ = _
    rw [hread]
    rfl
  have hspelled := SpelledSimples.of_simpleAt hspells hs (by simp)
    (by rintro c ⟨⟩; decide) (by rintro t ⟨⟩; rfl)
  rw [Flags.join_empty] at hspelled
  simpa [Attribute.text] using hspelled

end MailCss
