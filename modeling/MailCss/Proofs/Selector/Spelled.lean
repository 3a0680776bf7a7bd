import MailCss.Proofs.Css.Spelling
import MailCss.Proofs.Selector.Compounds

/-!
# Texts of simple selectors

`SpelledSimples F f w ts g` says that the text `w` has the trees `ts` in front of any text of which
`F` holds, and that these are read as simple selectors, from the flags `f` to the flags `g`.
-/

namespace MailCss

open Css (Token TokenTree Lexeme Spells EndsIdents EndsNames Anything IsIdent IsName identLeaf)

/-- The characters that simple selectors begin with. -/
def simpleMarks : List Char := ['.', '#', '[', ':', '&']

/-- A text that is read as simple selectors in front of texts of which `F` holds. -/
structure SpelledSimples (F : List Char → Prop) (f : Flags) (w : List Char) (ts : List TokenTree)
    (g : Flags) : Prop where
  spells : Spells F w ts
  noComma : ∀ t ∈ ts, t.token ≠ .comma
  reads : ReadsSimples f (Item.ofTrees ts) g
  begins : ∀ c ∈ w.head?, c ∈ simpleMarks
  ne_nil : w ≠ [] → ts ≠ []

theorem endsIdents_of_mark {c : Char} (hc : c ∈ simpleMarks) (r : List Char) :
    EndsIdents (c :: r) := by
  have hall : simpleMarks.all (fun d => (Css.inName d = false ∧ d ∉ ['\\', '\n', '\r', '\x0c']) ∧
      d ≠ '(' ∧ d ≠ '>') = true := by decide
  obtain ⟨hname, hmark⟩ := of_decide_eq_true (List.all_eq_true.1 hall c hc)
  refine ⟨?_, ?_⟩
  · rintro d ⟨⟩
    exact hname
  · rintro d ⟨⟩
    exact hmark

namespace SpelledSimples

variable {F : List Char → Prop} {f g h : Flags} {v w : List Char} {ts us : List TokenTree}

theorem nil : SpelledSimples F f [] [] f where
  spells := .nil
  noComma := by simp
  reads := .nil
  begins := by simp
  ne_nil := fun hne => absurd rfl hne

theorem mono {G : List Char → Prop} (hw : SpelledSimples F f w ts g) (hF : ∀ r, G r → F r) :
    SpelledSimples G f w ts g :=
  { hw with spells := hw.spells.mono hF }

theorem of_anything (hw : SpelledSimples Anything f w ts g) : SpelledSimples F f w ts g :=
  hw.mono fun _ _ => trivial

/-- Simple selectors end a name that is in front of them, and so does what ends names. -/
theorem endsIdents_append (hw : SpelledSimples F f w ts g) {r : List Char}
    (hr : w = [] → EndsIdents r) : EndsIdents (w ++ r) := by
  rcases w with _ | ⟨c, w⟩
  · exact hr rfl
  · exact endsIdents_of_mark (hw.begins c rfl) _

theorem append (hv : SpelledSimples EndsIdents f v ts g) (hw : SpelledSimples F g w us h)
    (hF : ∀ r, F r → w = [] → EndsIdents r) : SpelledSimples F f (v ++ w) (ts ++ us) h where
  spells := hv.spells.append hw.spells fun r hr => hw.endsIdents_append (hF r hr)
  noComma := by
    intro t ht
    rcases List.mem_append.1 ht with ht | ht
    · exact hv.noComma t ht
    · exact hw.noComma t ht
  reads := by
    rw [Item.ofTrees_append]
    exact hv.reads.append hw.reads
  begins := by
    intro c hc
    rcases v with _ | ⟨d, v⟩
    · exact hw.begins c hc
    · exact hv.begins c hc
  ne_nil := by
    intro hne hnil
    rw [List.append_eq_nil_iff] at hnil
    refine hne ?_
    rw [List.append_eq_nil_iff]
    exact ⟨by_contra fun hv' => hv.ne_nil hv' hnil.1, by_contra fun hw' => hw.ne_nil hw' hnil.2⟩

/-- One simple selector. -/
theorem of_simpleAt {s : Simple} (hspells : Spells F w ts)
    (hs : SimpleAt f (Item.ofTrees ts) s []) (hne : s.components ≠ [])
    (hbegins : ∀ c ∈ w.head?, c ∈ simpleMarks)
    (hhead : ∀ t ∈ ts.head?, t.token.isComment = false) :
    SpelledSimples F f w ts (f.join s.raised) where
  spells := hspells
  noComma := by
    intro t ht
    have hmem : Item.ofTree t ∈ Item.ofTrees ts := by
      rw [Item.ofTrees_eq_map]
      exact List.mem_map_of_mem ht
    rcases hs.token_ne_comma hmem with hnil | hcomma
    · cases hnil
    · rwa [Item.token_ofTree] at hcomma
  reads := by
    refine .single hs ?_ hne
    intro t ht
    rw [Item.ofTrees_eq_map, List.head?_map] at ht
    obtain ⟨u, hu, rfl⟩ := Option.map_eq_some_iff.1 ht
    rw [Item.isComment, Item.token_ofTree]
    exact hhead u hu
  begins := hbegins
  ne_nil := by
    rintro - rfl
    exact hs.ne_nil rfl

end SpelledSimples

/-! ## Names -/

section Names

variable {f : Flags} {w : List Char}

@[simp] theorem Flags.join_empty (f : Flags) : f.join {} = f := by
  simp [Flags.join]

theorem dropComments_cons {t : Item} (ht : t.isComment = false) (r : List Item) :
    dropComments (t :: r) = t :: r := by
  simp [dropComments, ht]

theorem beginsNoDigit_append (hw : IsIdent w) (r : List Char) : Css.BeginsNoDigit (w ++ r) := by
  obtain ⟨c, v, rfl⟩ := List.exists_cons_of_ne_nil hw.ne_nil
  rintro d ⟨⟩
  exact (hw.head c rfl).1

theorem spelledSimples_className (hw : IsIdent w) (hf : f.afterAny = false) :
    SpelledSimples EndsIdents f ('.' :: w) [.leaf ⟨.delim '.', ['.']⟩, identLeaf w] f := by
  have hspells : Spells EndsIdents ('.' :: w) [.leaf ⟨.delim '.', ['.']⟩, identLeaf w] :=
    Css.spells_point.append (Css.spells_ident hw) fun r _ => beginsNoDigit_append hw r
  have hs : SimpleAt f (Item.ofTrees [.leaf ⟨.delim '.', ['.']⟩, identLeaf w])
      { components := [.className (String.ofList (Css.unescape w))] } [] :=
    .className (dropComments_cons rfl _) rfl hf (dropComments_cons rfl _) rfl
  have hspelled := SpelledSimples.of_simpleAt hspells hs (by simp)
    (by rintro c ⟨⟩; decide) (by rintro t ⟨⟩; rfl)
  rwa [Flags.join_empty] at hspelled

theorem spelledSimples_id (hw : IsIdent w) (hf : f.afterAny = false) :
    SpelledSimples EndsIdents f ('#' :: w)
      [.leaf ⟨.idHash (String.ofList (Css.unescape w)), '#' :: w⟩] f := by
  have hspells := (Css.spells_idHash hw).mono fun r (hr : EndsIdents r) => hr.1
  have hs : SimpleAt f (Item.ofTrees [.leaf ⟨.idHash (String.ofList (Css.unescape w)), '#' :: w⟩])
      { components := [.id (String.ofList (Css.unescape w))] } [] :=
    .id (dropComments_cons rfl _) rfl hf
  have hspelled := SpelledSimples.of_simpleAt hspells hs (by simp)
    (by rintro c ⟨⟩; decide) (by rintro t ⟨⟩; rfl)
  rwa [Flags.join_empty] at hspelled

theorem spelledSimples_nesting :
    SpelledSimples Anything f ['&'] [.leaf ⟨.delim '&', ['&']⟩] f := by
  have hs : SimpleAt f (Item.ofTrees [.leaf ⟨.delim '&', ['&']⟩])
      { components := [.nesting] } [] := .nesting (dropComments_cons rfl _) rfl
  have hspelled := SpelledSimples.of_simpleAt Css.spells_ampersand hs (by simp)
    (by rintro c ⟨⟩; decide) (by rintro t ⟨⟩; rfl)
  rwa [Flags.join_empty] at hspelled

end Names

end MailCss
