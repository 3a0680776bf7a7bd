import MailCss.Proofs.Selector.Chains

/-!
# Pseudo-classes and pseudo-elements without arguments

A pseudo-class or pseudo-element without arguments is written under a name of its own: some names
are put into lower case, and two are renamed. Under that name it is read again, as long as the name
reads as itself: it is written without escapes (`IsWord`).

A component in `:is()` may be read again outside of it, where nothing rules out pseudo-elements. So
reading back goes from the flags that a component was read by to flags that are as they are or ease
them (`Flags.Eases`).

Main statements: `isLegible_of_plainClass` and `isLegible_of_plainElement`.
-/

namespace MailCss

open Css

/-- The flags `g` are `f`, or they are those around a list in which `f` holds. -/
def Flags.Eases (f g : Flags) : Prop := f = g ∨ f = g.inList

namespace Flags.Eases

variable {f g : Flags}

theorem refl (f : Flags) : f.Eases f := .inl rfl

theorem join (h : f.Eases g) (r : Flags) : (f.join r).Eases (g.join r) := by
  rcases h with rfl | rfl
  · exact .inl rfl
  · exact .inr (by simp [Flags.join, Flags.inList])

/-- The surroundings of a list or a compound inside are the same for both. -/
theorem inList (h : f.Eases g) : f.inList = g.inList := by
  rcases h with rfl | rfl <;> rfl

theorem inCompound (h : f.Eases g) : f.inCompound = g.inCompound := by
  rcases h with rfl | rfl <;> rfl

/-- A list inside a list is no other surroundings. -/
theorem of_inList (h : f.Eases g) : f.inList.Eases g := by
  rcases h with rfl | rfl <;> exact .inr rfl

/-- What has been read in front is the same for both. -/
theorem afterAny (h : f.Eases g) : f.afterAny = g.afterAny := by
  rcases h with rfl | rfl <;> rfl

theorem afterSlotted (h : f.Eases g) : f.afterSlotted = g.afterSlotted := by
  rcases h with rfl | rfl <;> rfl

theorem plainPseudoClass (h : f.Eases g) (name : String) :
    MailCss.plainPseudoClass f name = MailCss.plainPseudoClass g name := by
  rcases h with rfl | rfl <;> rfl

/-- Pseudo-elements are ruled out by the first, if by the second. -/
theorem barred (h : f.Eases g) (hf : (f.afterElement || f.noPseudoElements) = false) :
    (g.afterElement || g.noPseudoElements) = false := by
  rcases h with rfl | rfl
  · exact hf
  · simp [Flags.inList] at hf

end Flags.Eases

theorem Flags.afterSlotted_of_afterAny {f : Flags} (h : f.afterAny = false) :
    f.afterSlotted = false := by
  simp only [Flags.afterAny, Bool.or_eq_false_iff] at h
  exact h.1.1

/-! ## Names that read as themselves -/

/-- A name that is an identifier as it stands. -/
def IsWord (name : String) : Prop := IsIdent name.toList ∧ unescape name.toList = name.toList

instance (name : String) : Decidable (IsWord name) := inferInstanceAs (Decidable (_ ∧ _))

section Words

variable {f : Flags} {name : String}

theorem IsWord.token (h : IsWord name) :
    (Item.ofTree (identLeaf name.toList)).token = .ident name := by
  rw [Item.token_ofTree, token_identLeaf, h.2, String.ofList_toList]

/-- A word behind a colon that is the name of a pseudo-class. -/
theorem IsWord.writtenSimples_class (h : IsWord name) (helement : isElementName false name = false)
    {c : Component} (hclass : plainPseudoClass f name = .ok c) :
    WrittenSimples f (':' :: name.toList) f := by
  have hwritten := writtenSimples_oneColon h.1 (.plainClass h.token helement hclass)
    (List.cons_ne_nil _ _)
  rwa [Flags.join_empty] at hwritten

end Words

/-! ## Pseudo-classes -/

/-- The pseudo-classes of a document's structure are written as words under which they are read. -/
theorem exists_word_of_structural {name : String} {c : Component} (h : structural? name = some c) :
    ∃ w, c.text = ':' :: w.toList ∧ IsWord w ∧ isElementName false w = false ∧
      (structural? w).isSome = true := by
  have hcounting : ∀ p ∈ Names.counting, nthText p.2 ⟨0, 1⟩ = ':' :: p.1.toList ∧ IsWord p.1 ∧
      isElementName false p.1 = false ∧ (structural? p.1).isSome = true := by decide +kernel
  have hstructural : ∀ w ∈ "scope" :: Names.structural, IsWord w ∧
      isElementName false w = false ∧ (structural? w).isSome = true := by decide +kernel
  rw [structural?] at h
  generalize Names.lower name = w at h
  split at h
  · rename_i k hk
    cases h
    obtain ⟨l, r, heq, -⟩ := List.lookup_eq_some_iff.1 hk
    obtain ⟨htext, hrest⟩ := hcounting (w, k) (by rw [heq]; simp)
    exact ⟨w, htext, hrest⟩
  · split_ifs at h with hscope hmem <;> cases h
    · exact ⟨"scope", rfl, hstructural _ List.mem_cons_self⟩
    · refine ⟨w, ?_, hstructural w (List.mem_cons_of_mem _ hmem)⟩
      rw [Component.text_pseudoClass, Arguments.text, List.append_nil]

/-- The name under which a pseudo-class is written is its own, and that of no pseudo-element. -/
theorem pseudoClass_pseudoClass (name : String) :
    Names.pseudoClass (Names.pseudoClass name) = Names.pseudoClass name ∧
      (isElementName false name = false →
        isElementName false (Names.pseudoClass name) = false) := by
  have hrenamed : ∀ p ∈ Names.renamedStates, Names.pseudoClass p.2 = p.2 ∧
      isElementName false p.2 = false := by decide
  cases hs : Names.renamedStates.lookup (Names.lower name) with
  | some s =>
    obtain ⟨l, r, heq, -⟩ := List.lookup_eq_some_iff.1 hs
    have hname : Names.pseudoClass name = s := by
      simp only [Names.pseudoClass, hs]
    obtain ⟨hself, helement⟩ := hrenamed (Names.lower name, s) (by rw [heq]; simp)
    rw [hname]
    exact ⟨hself, fun _ => helement⟩
  | none =>
    by_cases hknown : Names.lower name ∈ Names.userActions ++ Names.scrollbarStates ++ Names.states
    · have hname : Names.pseudoClass name = Names.lower name := by
        simp only [Names.pseudoClass, hs, if_pos hknown]
      rw [hname]
      refine ⟨by simp only [Names.pseudoClass, lower_lower, hs, if_pos hknown], ?_⟩
      simp only [isElementName, lower_lower]
      exact fun h => h
    · have hname : Names.pseudoClass name = name := by
        simp only [Names.pseudoClass, hs, if_neg hknown]
      rw [hname, hname]
      exact ⟨rfl, fun h => h⟩

/-- Whether a pseudo-class that is not of a document's structure may stand behind the flags `f`. -/
def mayStand (f : Flags) (written : String) : Bool :=
  if f.afterScrollbar then written ∈ Names.scrollbarStates ∨ written ∈ Names.afterScrollbar
  else if f.afterElement then written ∈ Names.userActions
  else written ∉ Names.scrollbarStates

section PlainPseudoClass

variable {f : Flags} {name : String} {c : Component}

/-- What a pseudo-class without arguments is read as. -/
theorem plainPseudoClass_cases (h : plainPseudoClass f name = .ok c) : f.afterSlotted = false ∧
    (f.afterAny = false ∧ structural? name = some c ∨
      f.afterTransition = true ∧ c = .nth .onlyChild ⟨0, 1⟩ ∨
      c = .pseudoClass (Names.pseudoClass name) .none ∧
        mayStand f (Names.pseudoClass name) = true) := by
  rw [plainPseudoClass] at h
  split at h
  · cases h
  rename_i hslotted
  refine ⟨by simpa using hslotted, ?_⟩
  split at h
  · rename_i d hd
    cases h
    split at hd
    · cases hd
    · rename_i hafter
      exact .inl ⟨by simpa using hafter, hd⟩
  · dsimp only at h
    rw [mayStand]
    split_ifs at h with htransition hscrollbar hmay helement hmay hmay <;> cases h
    · exact .inr (.inl ⟨(Bool.and_eq_true_iff.1 htransition).1, rfl⟩)
    · exact .inr (.inr ⟨rfl, by simpa [hscrollbar] using hmay⟩)
    · exact .inr (.inr ⟨rfl, by simpa [hscrollbar, helement] using hmay⟩)
    · exact .inr (.inr ⟨rfl, by simpa [hscrollbar, helement] using hmay⟩)

theorem exists_plainPseudoClass_of_structural (hslotted : f.afterSlotted = false)
    (hafter : f.afterAny = false) (h : (structural? name).isSome = true) :
    ∃ d, plainPseudoClass f name = .ok d := by
  obtain ⟨d, hd⟩ := Option.isSome_iff_exists.1 h
  exact ⟨d, by simp [plainPseudoClass, hslotted, hafter, hd]⟩

theorem exists_plainPseudoClass_of_mayStand (hslotted : f.afterSlotted = false)
    (h : mayStand f (Names.pseudoClass name) = true) :
    ∃ d, plainPseudoClass f name = .ok d := by
  rw [plainPseudoClass, hslotted, if_neg Bool.false_ne_true]
  split
  · exact ⟨_, rfl⟩
  · rw [mayStand] at h
    dsimp only
    split_ifs at h ⊢ <;> first | exact ⟨_, rfl⟩ | simp_all

/-- A pseudo-class without arguments is read back, if it is written under a word. -/
theorem isLegible_of_plainClass {g : Flags} (he : f.Eases g)
    (helement : isElementName false name = false) (h : plainPseudoClass f name = .ok c)
    (hword : ∀ w, c = .pseudoClass w .none → IsWord w) : c.IsLegible g := by
  rw [Component.isLegible_iff (plainPseudoClass_eq_ok h g).2]
  rw [he.plainPseudoClass] at h
  obtain ⟨hslotted, ⟨hafter, hc⟩ | ⟨htransition, rfl⟩ | ⟨rfl, hmay⟩⟩ := plainPseudoClass_cases h
  · obtain ⟨w, htext, hw, helement', hsome⟩ := exists_word_of_structural hc
    obtain ⟨d, hd⟩ := exists_plainPseudoClass_of_structural hslotted hafter hsome
    rw [htext]
    exact hw.writtenSimples_class helement' hd
  · have hd : ∃ d, plainPseudoClass g "only-child" = .ok d := by
      rw [plainPseudoClass, hslotted, if_neg Bool.false_ne_true]
      split
      · exact ⟨_, rfl⟩
      · exact ⟨_, if_pos (by rw [htransition]; decide)⟩
    obtain ⟨d, hd⟩ := hd
    have hword : IsWord "only-child" := by decide
    exact hword.writtenSimples_class (by decide) hd
  · obtain ⟨hself, hname⟩ := pseudoClass_pseudoClass name
    have hmay' : mayStand g (Names.pseudoClass (Names.pseudoClass name)) = true := by
      rw [hself, hmay]
    obtain ⟨d, hd⟩ := exists_plainPseudoClass_of_mayStand hslotted hmay'
    have hwritten := (hword _ rfl).writtenSimples_class (hname helement) hd
    rwa [Component.text_pseudoClass, Arguments.text, List.append_nil]

end PlainPseudoClass

/-! ## Pseudo-elements -/

/-- The names that are written with one colon are read with one. -/
theorem isElementName_of_mem_oneColon {name : String} (h : name ∈ Names.oneColon) :
    isElementName false name = true := by
  have hall : ∀ name ∈ Names.oneColon, isElementName false name = true := by decide
  exact hall name h

/-- A word behind the colons of a pseudo-element. -/
theorem IsWord.writtenSimples_element {f : Flags} {name : String} (h : IsWord name)
    (hbarred : (f.afterElement || f.noPseudoElements) = false)
    (hslotted : (f.afterSlotted &&
      !(Names.pseudoElement? name).any (· ∈ Names.slottable)) = false) :
    WrittenSimples f (elementColons name .none ++ name.toList)
      (f.join (plainPseudoElement name).raised) := by
  have hne : (plainPseudoElement name).components ≠ [] := by
    rw [plainPseudoElement]
    split <;> exact List.cons_ne_nil _ _
  rw [elementColons]
  split
  · rename_i hcolon
    exact writtenSimples_oneColon h.1 (.plainElement h.token
      (isElementName_of_mem_oneColon hcolon.2) hbarred hslotted) hne
  · exact writtenSimples_twoColons h.1 (.plainElement h.token rfl hbarred hslotted) hne

/-- A pseudo-element without arguments is read back, if it is written under a word. -/
theorem isLegible_of_plainElement {f g : Flags} {name : String} {c : Component} (he : f.Eases g)
    (hbarred : (f.afterElement || f.noPseudoElements) = false)
    (hslotted : (f.afterSlotted && !(Names.pseudoElement? name).any (· ∈ Names.slottable)) = false)
    (hc : c ∈ (plainPseudoElement name).components) (hpseudo : c.isPseudo = true)
    (hword : ∀ w, c = .pseudoElement w .none → IsWord w) : c.IsLegible g := by
  -- The name that is written means the same pseudo-element.
  have hname : ∃ w, c = .pseudoElement w .none ∧
      Names.pseudoElement? w = Names.pseudoElement? name := by
    rw [plainPseudoElement] at hc
    cases hs : Names.pseudoElement? name with
    | some s =>
      simp only [hs, knownElement, List.mem_cons, List.not_mem_nil, or_false] at hc
      rcases hc with rfl | rfl
      · cases hpseudo
      · exact ⟨s, rfl, pseudoElement?_of_eq_some hs⟩
    | none =>
      simp only [hs, List.mem_cons, List.not_mem_nil, or_false] at hc
      exact ⟨name, hc, hs⟩
  obtain ⟨w, rfl, hw⟩ := hname
  rw [he.afterSlotted, ← hw] at hslotted
  have hwritten := (hword w rfl).writtenSimples_element (he.barred hbarred) hslotted
  rwa [Component.IsLegible, Component.text_pseudoElement, Arguments.text, List.append_nil]

end MailCss
