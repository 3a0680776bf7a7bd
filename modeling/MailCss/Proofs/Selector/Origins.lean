import MailCss.Proofs.Css.Meanings
import MailCss.Proofs.Selector.Parsed

/-!
# Where the words of a selector come from

A class in a selector is named by an identifier of the text that the selector is read from, and the
value of an attribute is an identifier or a string of it.

Main statement: `SelectorList.quotes_of_parse`.
-/

namespace MailCss

open Css (Lexeme TokenTree lexemes)

/-! ## Items of a text -/

/-- Items of sound trees that are made of lexemes among `xs`. -/
def ItemsOf (xs : List Lexeme) (items : List Item) : Prop :=
  ∀ t ∈ items, ∃ x : TokenTree, x.Sound ∧ x.MadeOf xs ∧ t = Item.ofTree x

namespace ItemsOf

variable {xs : List Lexeme} {items r : List Item} {t : Item}

theorem sound (h : ItemsOf xs items) : SoundItems items := fun t ht =>
  let ⟨x, hx, _, heq⟩ := h t ht
  ⟨x, hx, heq⟩

theorem of_suffix (h : ItemsOf xs items) (hr : r <:+ items) : ItemsOf xs r :=
  fun t ht => h t (hr.subset ht)

theorem ofTrees {ts : List TokenTree} (hsound : TokenTree.SoundAll ts)
    (hof : ∀ t ∈ ts, t.MadeOf xs) : ItemsOf xs (Item.ofTrees ts) := by
  induction ts with
  | nil =>
    rintro t ⟨⟩
  | cons t ts ih =>
    rw [TokenTree.SoundAll] at hsound
    obtain ⟨ht, hts⟩ := List.forall_mem_cons.1 hof
    rw [Item.ofTrees]
    exact List.forall_mem_cons.2 ⟨⟨t, hsound.1, ht, rfl⟩, ih hsound.2.2 hts⟩

theorem ofText (w : List Char) : ItemsOf (lexemes w) (Item.ofTrees (TokenTree.ofText w)) :=
  ofTrees (TokenTree.soundAll_ofText w) fun _ => TokenTree.madeOf_of_mem_ofText

/-- An item begins with a lexeme. -/
theorem exists_lexeme (h : ItemsOf xs items) (ht : t ∈ items) : ∃ x ∈ xs, x.token = t.token := by
  obtain ⟨x, -, hx, rfl⟩ := h t ht
  rw [Item.token_ofTree]
  exact ⟨x.head, hx.head_mem, rfl⟩

/-- A group is read the way its token says, from items of the same lexemes. -/
theorem exists_enter (h : ItemsOf xs items) (ht : t ∈ items) :
    ∃ inner, ItemsOf xs inner ∧ ∀ entry f, t.enter entry f = readGroup t.token inner entry f := by
  obtain ⟨x, hsound, hx, rfl⟩ := h t ht
  cases x with
  | leaf x => exact ⟨[], by rintro t ⟨⟩, fun _ _ => rfl⟩
  | group x inner closer =>
    rw [TokenTree.Sound] at hsound
    rw [TokenTree.MadeOf, TokenTree.allMadeOf_iff] at hx
    exact ⟨Item.ofTrees inner, ofTrees hsound.2.1 hx.2, fun _ _ => rfl⟩

theorem of_mem_segments {seg : List Item} (h : ItemsOf xs items) (hseg : seg ∈ segments items) :
    ItemsOf xs seg :=
  fun t ht => h t (mem_of_mem_segments hseg ht)

end ItemsOf

/-! ## Components -/

/-- What a component takes over from a text is there: the name of a class is that of an identifier
among `xs`, the value of an attribute that of an identifier or a string. -/
def Component.Quotes (xs : List Lexeme) : Component → Prop
  | .className name => ∃ x ∈ xs, x.token = .ident name
  | .attribute a => ∀ test ∈ a.test, ∃ x ∈ xs, x.token.text? = some test.value
  | _ => True

/-- What may stand behind a pseudo-element takes over nothing. -/
theorem Component.quotes_of_fits {xs : List Lexeme} {f : Flags} {c : Component}
    (h : c.fits f = true) (hf : f.afterAny = true) : c.Quotes xs := by
  unfold Component.Quotes
  split
  · simp [Component.fits, hf] at h
  · simp [Component.fits, hf] at h
  · trivial

theorem Chain.IsTypeSelector.quotes {xs : List Lexeme} {y : Chain} (h : Chain.IsTypeSelector y) :
    ∀ c ∈ y, c.Quotes xs := by
  intro c hc
  cases h with
  | none => cases hc
  | tag hq hname =>
    rename_i q name
    cases q <;> simp at hc <;> rcases hc with rfl | rfl <;> trivial
  | universal hq =>
    rename_i q
    cases q <;> simp at hc <;> rcases hc with rfl | rfl <;> trivial

section Reading

variable {xs : List Lexeme} {items r : List Item}

theorem Attribute.readQualified_isSuffix {n : Namespace} {p : Option Namespace × String}
    (h : readQualified n items = .ok (p, r)) : r <:+ items := by
  rw [readQualified] at h
  split at h
  · cases h
  · rename_i t r' ht
    split at h
    · cases h
      exact behind_of_dropComments ht
    · cases h

theorem Attribute.readName_isSuffix {p : Option Namespace × String}
    (h : readName items = .ok (p, r)) : r <:+ items := by
  rw [readName] at h
  split at h
  · cases h
  rename_i t r₁ ht
  have hr₁ : r₁ <:+ items := behind_of_dropComments ht
  have hbar {u : Item} {r₂ : List Item} (hu : dropComments r₁ = u :: r₂) : r₂ <:+ items :=
    (behind_of_dropComments hu).trans hr₁
  split at h
  · split at h
    · rename_i hu
      split at h
      · exact (readQualified_isSuffix h).trans (hbar hu)
      · cases h
        exact hr₁
    · cases h
      exact hr₁
  · split at h
    · cases h
    · rename_i hu
      split at h
      · exact (readQualified_isSuffix h).trans (hbar hu)
      · cases h
  · exact (readQualified_isSuffix h).trans hr₁
  · cases h

theorem Attribute.readValue_eq_ok {value : String} (hitems : ItemsOf xs items)
    (h : readValue items = .ok (value, r)) : ∃ x ∈ xs, x.token.text? = some value := by
  have hread : readIdentOrString items = .ok (value, r) := by
    unfold readValue at h
    split at h
    · cases h
    · exact h
  rw [readIdentOrString] at hread
  split at hread
  · cases hread
  · rename_i t r' ht
    obtain ⟨x, hx, htoken⟩ := hitems.exists_lexeme (head_mem_of_dropSkipped ht)
    refine ⟨x, hx, ?_⟩
    rw [htoken]
    split at hread
    · rename_i name hname
      cases hread
      rw [hname]
      rfl
    · rename_i name hname
      cases hread
      rw [hname]
      rfl
    · cases hread

/-- An attribute that is read takes its value over. -/
theorem Attribute.read_quotes {a : Attribute} (hitems : ItemsOf xs items)
    (h : Attribute.read items = .ok a) : (Component.attribute a).Quotes xs := by
  obtain ⟨⟨⟨n, name⟩, r₁⟩, hname, h⟩ := exists_of_bind_eq_ok h
  obtain ⟨⟨test, r₂⟩, htest, h⟩ := exists_of_bind_eq_ok h
  obtain rfl := eq_of_exhausted_eq_ok h
  have hbehind : ItemsOf xs r₁ := hitems.of_suffix <|
    (readName_isSuffix hname).trans (List.dropWhile_suffix _)
  unfold readTest at htest
  split at htest
  · cases htest
    rintro _ ⟨⟩
  · rename_i t r' ht
    split at htest
    · cases htest
    · obtain ⟨⟨value, r₃⟩, hvalue, htest⟩ := exists_of_bind_eq_ok htest
      obtain ⟨⟨flag, r₄⟩, -, htest⟩ := exists_of_bind_eq_ok htest
      cases htest
      rintro _ ⟨⟩
      exact readValue_eq_ok (hbehind.of_suffix (behind_of_dropSkipped ht)) hvalue

/-- What is read as a simple selector takes over words of the text. -/
theorem SimpleAt.quotes {f : Flags} {s : Simple} (hitems : ItemsOf xs items)
    (h : SimpleAt f items s r) : ∀ c ∈ s.components, c.Quotes xs := by
  -- Behind colons anything is read that could stand behind a pseudo-element.
  have hpseudo {g : Flags} {doubled : Bool} {items : List Item} {t : Item}
      (hitems : ItemsOf xs items) (ht : t ∈ items) (h : PseudoAt g doubled t s) :
      ∀ c ∈ s.components, c.Quotes xs := by
    obtain ⟨inner, -, henter⟩ := hitems.exists_enter ht
    cases h.isRead henter { afterPart := true } with
    | plain hfits => simpa using Component.quotes_of_fits hfits rfl
    | @element _ c _ hfits =>
      have hquotes : c.Quotes xs := Component.quotes_of_fits hfits rfl
      simpa [Component.Quotes] using hquotes
  cases h with
  | id => simp [Component.Quotes]
  | className ht _ _ hu htoken =>
    have hbehind := hitems.of_suffix (behind_of_dropComments ht)
    obtain ⟨x, hx, hxtoken⟩ := hbehind.exists_lexeme (head_mem_of_dropComments hu)
    simpa [Component.Quotes] using ⟨x, hx, hxtoken.trans htoken⟩
  | brackets ht htoken _ h =>
    obtain ⟨inner, hinner, henter⟩ := hitems.exists_enter (head_mem_of_dropComments ht)
    rw [henter, readGroup] at h
    obtain ⟨a, ha, rfl⟩ := exists_of_map_eq_ok h
    simpa using Attribute.read_quotes hinner ha
  | nesting => simp [Component.Quotes]
  | oneColon ht _ hu _ h =>
    exact hpseudo (hitems.of_suffix (behind_of_dropComments ht)) (head_mem_of_dropComments hu) h
  | twoColons ht _ hu _ hv h =>
    have hbehind := (hitems.of_suffix (behind_of_dropComments ht)).of_suffix
      (behind_of_dropComments hu)
    exact hpseudo hbehind (head_mem_of_dropComments hv) h

/-! ## Compounds and selectors -/

theorem readSimples_quotes {k : Nat} {p p' : Progress} (hitems : ItemsOf xs p.rest)
    (hp : ∀ c ∈ p.components, c.Quotes xs) (h : readSimples k p = .ok p') :
    ∀ c ∈ p'.components, c.Quotes xs := by
  induction k generalizing p with
  | zero =>
    cases h
    exact hp
  | succ k ih =>
    rw [readSimples] at h
    split at h
    · cases h
      exact hp
    · cases h
    · rename_i s rest hs
      have hsimple := readSimple?_eq_ok.1 hs
      refine ih (hitems.of_suffix hsimple.isSuffix) ?_ h
      intro c hc
      rcases List.mem_append.1 hc with hc | hc
      · exact hp c hc
      · exact hsimple.quotes hitems c hc

theorem readCompound_quotes {f : Flags} {p : Progress} (hitems : ItemsOf xs items)
    (h : readCompound f items = .ok p) : ∀ c ∈ p.components, c.Quotes xs := by
  obtain ⟨n, y, r, hn, hy, -, hr, hsimples⟩ := exists_readSimples hitems.sound h
  refine readSimples_quotes (hitems.of_suffix hr) ?_ hsimples
  intro c hc
  rcases List.mem_append.1 hc with hc | hc
  · rcases hn with rfl | rfl
    · cases hc
    · obtain rfl := List.mem_singleton.1 hc
      trivial
  · exact hy.quotes c hc

theorem readCompounds_quotes {k : Nat} {built chain : Chain} (hitems : ItemsOf xs items)
    (hbuilt : ∀ c ∈ built, c.Quotes xs) (h : readCompounds k {} built items = .ok (chain, r)) :
    ∀ c ∈ chain, c.Quotes xs := by
  induction k generalizing built items with
  | zero =>
    cases h
    exact hbuilt
  | succ k ih =>
    obtain ⟨p, hp, h⟩ := exists_of_bind_eq_ok h
    have hchain : ∀ c ∈ built ++ p.components, c.Quotes xs := by
      intro c hc
      rcases List.mem_append.1 hc with hc | hc
      · exact hbuilt c hc
      · exact readCompound_quotes hitems hp c hc
    dsimp only at h
    split at h
    · cases h
    rename_i hne
    obtain ⟨hcompound, -, hsuffix⟩ := readCompound_eq_ok hitems.sound hp (by simpa using hne)
    split at h
    · split at h
      · cases h
        exact hchain
      · cases h
    rename_i hafter
    split at h
    · cases h
      exact hchain
    · rename_i k' r' hcombinator
      split at h
      · cases h
      obtain ⟨hr', -, -⟩ := readCombinatorFrom_eq_some List.suffix_rfl
        (by rintro ⟨⟩) List.suffix_rfl hcombinator
      rw [hcompound.eq_of_not_afterAny (by simpa using hafter)] at h
      refine ih ((hitems.of_suffix hsuffix).of_suffix hr') ?_ h
      intro c hc
      rcases List.mem_append.1 hc with hc | hc
      · exact hchain c hc
      · obtain rfl := List.mem_singleton.1 hc
        trivial

end Reading

/-- The selectors that a text holds take over words of that text. -/
theorem SelectorList.quotes_of_parse {source : String} {l : SelectorList}
    (h : parse source = .ok l) :
    ∀ chain ∈ l.chains, ∀ c ∈ chain, c.Quotes (lexemes source.toList) := by
  intro chain hchain
  obtain ⟨seg, hseg, hread⟩ := exists_of_mem_chains (read_of_parse h) hchain
  obtain ⟨⟨c, r⟩, hcompounds, hread⟩ := exists_of_bind_eq_ok hread
  obtain rfl := eq_of_exhausted_eq_ok hread
  exact readCompounds_quotes ((ItemsOf.ofText _).of_mem_segments hseg) (by simp) hcompounds

end MailCss
