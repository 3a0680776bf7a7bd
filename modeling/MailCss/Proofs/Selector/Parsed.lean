import Mathlib
import MailCss.Proofs.Css.Trees
import MailCss.Proofs.Selector.Readable

/-!
# What is read as a selector

The shape of the components that are read as a selector (`Chain.IsRead`): compounds with written
combinators between them; in each compound, the nesting selector comes before the type selector and
that before the simple selectors; and only the last compound has pseudo-elements that are known,
each behind a combinator that is not written. Where its pseudo-classes and pseudo-elements come from
is said along with it (`Component.Origin`, `Chain.Along`).

Main statements: `readSelector_eq_ok` and `SelectorList.isRead_of_read`.
-/

namespace MailCss

open Css (Token TokenTree)

theorem eq_of_exhausted_eq_ok {α : Type} {r : α × List Item} {a : α} (h : exhausted r = .ok a) :
    r.1 = a := by
  rw [exhausted] at h
  split at h
  · cases h
    rfl
  · cases h

/-! ## Items of a text -/

/-- Items of sound trees. -/
def SoundItems (items : List Item) : Prop := ∀ t ∈ items, ∃ x : TokenTree, x.Sound ∧ t = Item.ofTree x

namespace SoundItems

variable {items r : List Item} {t : Item}

theorem of_suffix (h : SoundItems items) (hr : r <:+ items) : SoundItems r :=
  fun t ht => h t (hr.subset ht)

theorem ofTrees {ts : List TokenTree} (h : TokenTree.SoundAll ts) : SoundItems (Item.ofTrees ts) := by
  induction ts with
  | nil =>
    rintro t ⟨⟩
  | cons t ts ih =>
    rw [TokenTree.SoundAll] at h
    rw [Item.ofTrees]
    intro u hu
    rcases List.mem_cons.1 hu with rfl | hu
    · exact ⟨t, h.1, rfl⟩
    · exact ih h.2.2 u hu

theorem ofText (w : List Char) : SoundItems (Item.ofTrees (TokenTree.ofText w)) :=
  ofTrees (TokenTree.soundAll_ofText w)

/-- The name of an identifier is not empty. -/
theorem name_ne_empty (h : SoundItems items) (ht : t ∈ items) {s : String}
    (hs : t.token.ident? = some s) : s ≠ "" := by
  obtain ⟨x, hx, rfl⟩ := h t ht
  rw [Item.token_ofTree] at hs
  cases x with
  | leaf x =>
    rw [TokenTree.Sound] at hx
    exact hx.1.ident?_ne_empty hs
  | group x inner closer =>
    rw [TokenTree.Sound] at hx
    exact hx.1.ident?_ne_empty hs

/-- A group is read the way its token says, from items of sound trees. -/
theorem exists_enter (h : SoundItems items) (ht : t ∈ items) :
    ∃ inner, SoundItems inner ∧ ∀ entry f, t.enter entry f = readGroup t.token inner entry f := by
  obtain ⟨x, hx, rfl⟩ := h t ht
  cases x with
  | leaf x => exact ⟨[], by rintro t ⟨⟩, fun _ _ => rfl⟩
  | group x inner closer =>
    rw [TokenTree.Sound] at hx
    exact ⟨Item.ofTrees inner, ofTrees hx.2.1, fun _ _ => rfl⟩

end SoundItems

theorem isSuffix_of_dropComments {items r : List Item} {t : Item}
    (h : dropComments items = t :: r) : t :: r <:+ items :=
  h ▸ List.dropWhile_suffix _

theorem isSuffix_of_dropSkipped {items r : List Item} {t : Item}
    (h : dropSkipped items = t :: r) : t :: r <:+ items :=
  h ▸ List.dropWhile_suffix _

section Behind

variable {items r : List Item} {t : Item}

theorem head_mem_of_dropComments (h : dropComments items = t :: r) : t ∈ items :=
  (isSuffix_of_dropComments h).subset List.mem_cons_self

theorem head_mem_of_dropSkipped (h : dropSkipped items = t :: r) : t ∈ items :=
  (isSuffix_of_dropSkipped h).subset List.mem_cons_self

theorem behind_of_dropComments (h : dropComments items = t :: r) : r <:+ items :=
  (List.suffix_cons t r).trans (isSuffix_of_dropComments h)

theorem behind_of_dropSkipped (h : dropSkipped items = t :: r) : r <:+ items :=
  (List.suffix_cons t r).trans (isSuffix_of_dropSkipped h)

end Behind

/-! ## Attributes and type selectors -/

theorem Attribute.readQualified_eq_ok {n : Namespace} {items r : List Item}
    {p : Option Namespace × String} (hitems : SoundItems items)
    (h : readQualified n items = .ok (p, r)) : p.1 = some n ∧ p.2 ≠ "" := by
  rw [readQualified] at h
  split at h
  · cases h
  · rename_i t r' ht
    split at h
    · rename_i name hname
      cases h
      exact ⟨rfl, hitems.name_ne_empty (head_mem_of_dropComments ht) (by rw [hname]; rfl)⟩
    · cases h

theorem Attribute.readName_eq_ok {items r : List Item} {p : Option Namespace × String}
    (hitems : SoundItems items) (h : readName items = .ok (p, r)) :
    p.1.all Namespace.isNamed = true ∧ p.2 ≠ "" := by
  rw [readName] at h
  split at h
  · cases h
  · rename_i t r' ht
    have hr' := hitems.of_suffix (behind_of_dropComments ht)
    split at h
    · rename_i name hname
      have hne := hitems.name_ne_empty (head_mem_of_dropComments ht) (s := name)
        (by rw [hname]; rfl)
      split at h
      · rename_i u r'' hu
        split at h
        · obtain ⟨hp, hp'⟩ := readQualified_eq_ok (hr'.of_suffix (behind_of_dropComments hu)) h
          rw [hp]
          exact ⟨by simpa [Namespace.isNamed] using hne, hp'⟩
        · cases h
          exact ⟨rfl, hne⟩
      · cases h
        exact ⟨rfl, hne⟩
    · split at h
      · cases h
      · rename_i u r'' hu
        split at h
        · obtain ⟨hp, hp'⟩ := readQualified_eq_ok (hr'.of_suffix (behind_of_dropComments hu)) h
          rw [hp]
          exact ⟨rfl, hp'⟩
        · cases h
    · obtain ⟨hp, hp'⟩ := readQualified_eq_ok hr' h
      rw [hp]
      exact ⟨rfl, hp'⟩
    · cases h

/-- An attribute that is read has a name, and so has its namespace. -/
theorem Attribute.read_eq_ok {items : List Item} {a : Attribute} (hitems : SoundItems items)
    (h : read items = .ok a) : a.name ≠ "" ∧ a.qualifier.all Namespace.isNamed = true := by
  obtain ⟨⟨⟨n, name⟩, r⟩, hname, h⟩ := exists_of_bind_eq_ok h
  obtain ⟨⟨test, r'⟩, -, h⟩ := exists_of_bind_eq_ok h
  obtain ⟨hqualifier, hne⟩ :=
    readName_eq_ok (hitems.of_suffix (List.dropWhile_suffix Item.isSkipped)) hname
  obtain rfl := eq_of_exhausted_eq_ok h
  refine ⟨hne, ?_⟩
  show (keptNamespace n).all Namespace.isNamed = true
  unfold keptNamespace
  split
  · rfl
  · exact hqualifier

/-- A name or a star with a namespace in front, or nothing at all. -/
inductive Chain.IsTypeSelector : Chain → Prop
  | none : IsTypeSelector []
  | tag {q : Option Namespace} {name} : q.all Namespace.isNamed = true → name ≠ "" →
      IsTypeSelector (q.toList.map Component.qualifier ++ [.tag name])
  | universal {q : Option Namespace} : q.all Namespace.isNamed = true →
      IsTypeSelector (q.toList.map Component.qualifier ++ [.universal])

theorem readQualifiedType_eq_ok {n : Namespace} {items r : List Item} {cs : List Component}
    (hitems : SoundItems items) (hn : n.isNamed = true)
    (h : readQualifiedType n items = .ok (cs, r)) : Chain.IsTypeSelector cs ∧ r <:+ items := by
  have hq : (some n).all Namespace.isNamed = true := by simpa using hn
  rw [readQualifiedType] at h
  split at h
  · cases h
    exact ⟨.none, List.nil_suffix⟩
  · rename_i t r' ht
    split at h
    · cases h
      exact ⟨.universal hq, behind_of_dropComments ht⟩
    · rename_i name hname
      cases h
      have hne := hitems.name_ne_empty (head_mem_of_dropComments ht) (s := name)
        (by rw [hname]; rfl)
      exact ⟨.tag hq hne, behind_of_dropComments ht⟩
    · cases h

theorem readTypeOrNamespace_eq_ok {n : Namespace} {c : Component} {items r : List Item}
    {cs : List Component} (hitems : SoundItems items) (hn : n.isNamed = true)
    (hc : Chain.IsTypeSelector [c]) (h : readTypeOrNamespace n c items = .ok (cs, r)) :
    Chain.IsTypeSelector cs ∧ r <:+ items := by
  rw [readTypeOrNamespace] at h
  split at h
  · rename_i t r' ht
    have hsuffix := behind_of_dropComments ht
    split at h
    · obtain ⟨htype, hr⟩ := readQualifiedType_eq_ok (hitems.of_suffix hsuffix) hn h
      exact ⟨htype, hr.trans hsuffix⟩
    · cases h
      exact ⟨hc, List.suffix_rfl⟩
  · cases h
    exact ⟨hc, List.suffix_rfl⟩

theorem readTypeName_eq_ok {items r : List Item} {cs : List Component} (hitems : SoundItems items)
    (h : readTypeName items = .ok (cs, r)) : Chain.IsTypeSelector cs ∧ r <:+ items := by
  rw [readTypeName] at h
  split at h
  · cases h
    exact ⟨.none, List.suffix_rfl⟩
  · rename_i t r' ht
    have hbehind := behind_of_dropComments ht
    have hr' := hitems.of_suffix hbehind
    split at h
    · rename_i name hname
      have hne := hitems.name_ne_empty (head_mem_of_dropComments ht) (s := name)
        (by rw [hname]; rfl)
      obtain ⟨htype, hr⟩ := readTypeOrNamespace_eq_ok hr'
        (by simpa [Namespace.isNamed] using hne) (.tag (q := none) rfl hne) h
      exact ⟨htype, hr.trans hbehind⟩
    · obtain ⟨htype, hr⟩ := readTypeOrNamespace_eq_ok hr' rfl (.universal (q := none) rfl) h
      exact ⟨htype, hr.trans hbehind⟩
    · obtain ⟨htype, hr⟩ := readQualifiedType_eq_ok hr' rfl h
      exact ⟨htype, hr.trans hbehind⟩
    · cases h
      exact ⟨.none, List.suffix_rfl⟩

/-! ## Formulas -/

namespace AnPlusB

variable {a : Int} {p : AnPlusB} {items r : List Item}

theorem readUnsigned_isSuffix {sign : Int} (h : readUnsigned a sign items = .ok (p, r)) :
    r <:+ items := by
  rw [readUnsigned] at h
  split at h
  · cases h
  · rename_i ht
    dsimp only at h
    split at h
    · split at h <;> cases h
      exact behind_of_dropSkipped ht
    · cases h

theorem readOffset_isSuffix (h : readOffset a items = .ok (p, r)) : r <:+ items := by
  rw [readOffset] at h
  split at h
  · cases h
    exact List.suffix_rfl
  · rename_i ht
    have hbehind := behind_of_dropSkipped ht
    split at h
    · split_ifs at h
      · exact (readUnsigned_isSuffix h).trans hbehind
      · exact (readUnsigned_isSuffix h).trans hbehind
      · cases h
        exact List.suffix_rfl
    · split at h <;> cases h
      · exact hbehind
      · exact List.suffix_rfl
    · cases h
      exact List.suffix_rfl

theorem readName_isSuffix {name : String} {other : Cause} {here : Nat}
    (h : readName a name other here items = .ok (p, r)) : r <:+ items := by
  rw [readName] at h
  split at h
  · exact readOffset_isSuffix h
  · exact readUnsigned_isSuffix h
  · split at h <;> cases h
    exact List.suffix_rfl

/-- What is left behind a formula. -/
theorem read_isSuffix (h : read items = .ok (p, r)) : r <:+ items := by
  rw [read] at h
  split at h
  · cases h
  · rename_i t r' ht
    have hbehind := behind_of_dropSkipped ht
    dsimp only at h
    split at h
    · split at h <;> cases h
      exact hbehind
    · split at h
      · exact (readName_isSuffix h).trans hbehind
      · cases h
    · split at h
      · cases h
        exact hbehind
      · cases h
        exact hbehind
      · split at h <;> exact (readName_isSuffix h).trans hbehind
    · split at h
      · cases h
      · rename_i hu
        have hbehind' := (behind_of_dropComments hu).trans hbehind
        split at h
        · exact (readName_isSuffix h).trans hbehind'
        · cases h
    · cases h

end AnPlusB

/-! ## Simple selectors -/

/-- Whether a component can be read as a simple selector behind the flags `f`. -/
def Component.fits (f : Flags) : Component → Bool
  | .combinator _ | .qualifier _ | .universal | .tag _ => false
  | .id name | .className name => name ≠ "" && !f.afterAny
  | .attribute a => a.name ≠ "" && a.qualifier.all Namespace.isNamed && !f.afterAny
  | _ => true

/-- What is read as a simple selector: a component that raises no flags, or a pseudo-element that
is known, behind a combinator that is not written. -/
inductive Simple.IsRead (f : Flags) : Simple → Prop
  | plain {c} : c.fits f = true → c.raised = {} → IsRead f { components := [c] }
  | element {k c} : k.isVisible = false → c.fits f = true → c.raised.afterAny = true →
      IsRead f { components := [.combinator k, c], raised := c.raised }

theorem readNth_eq_ok {f : Flags} {counted : Counted} {items : List Item} {c : Component}
    (h : readNth f counted items = .ok c) :
    (∃ p, c = .nth counted p) ∨ (counted = .child ∨ counted = .lastChild) ∧
      ∃ p r, r <:+ items ∧ c = .nthOf counted p (readForgivingList f.inList r) := by
  obtain ⟨⟨p, r⟩, hp, h⟩ := exists_of_bind_eq_ok h
  have hplain (hp : exhausted (Component.nth counted p, r) = .ok c) :
      ∃ p, c = .nth counted p := ⟨p, (eq_of_exhausted_eq_ok hp).symm⟩
  dsimp only at h
  split at h
  · rename_i hk
    split at h
    · exact .inl (hplain h)
    · rename_i t r' ht
      split at h
      · split at h
        · cases h
          exact .inr ⟨hk, p, r', (behind_of_dropSkipped ht).trans (AnPlusB.read_isSuffix hp), rfl⟩
        · exact .inl (hplain h)
      · exact .inl (hplain h)
  · exact .inl (hplain h)

theorem readMatching_eq_ok {f : Flags} {m : Matching} {items : List Item} {c : Component}
    (h : readMatching f m items = .ok c) : ∃ l, c = .matching m l := by
  unfold readMatching at h
  split at h
  · obtain ⟨l, -, rfl⟩ := exists_of_map_eq_ok h
    exact ⟨l, rfl⟩
  · cases h
    exact ⟨_, rfl⟩
  · cases h
    exact ⟨_, rfl⟩

theorem readPseudoClassArguments_eq_ok {name : String} {items : List Item} {c : Component}
    (h : readPseudoClassArguments name items = .ok c) : ∃ l args, c = .pseudoClass l args := by
  unfold readPseudoClassArguments at h
  dsimp only at h
  split at h <;> obtain ⟨a, -, rfl⟩ := exists_of_map_eq_ok h <;> exact ⟨_, _, rfl⟩

theorem readPseudoClass_eq_ok {f : Flags} {name : String} {items : List Item} {c : Component}
    (h : readPseudoClass f name items = .ok c) (g : Flags) : c.fits g = true ∧ c.raised = {} := by
  unfold readPseudoClass at h
  dsimp only at h
  split at h
  · split at h
    · cases h
    · obtain ⟨p, rfl⟩ | ⟨-, p, r, -, rfl⟩ := readNth_eq_ok h <;> exact ⟨rfl, rfl⟩
  · obtain ⟨l, rfl⟩ := readMatching_eq_ok h
    exact ⟨rfl, rfl⟩
  · split at h
    · cases h
    · split at h
      · obtain ⟨cs, -, rfl⟩ := exists_of_map_eq_ok h
        exact ⟨rfl, rfl⟩
      · obtain ⟨l, args, rfl⟩ := readPseudoClassArguments_eq_ok h
        exact ⟨rfl, rfl⟩

theorem structural?_eq_some {name : String} {c : Component} (h : structural? name = some c)
    (g : Flags) : c.fits g = true ∧ c.raised = {} := by
  unfold structural? at h
  dsimp only at h
  split at h
  · cases h
    exact ⟨rfl, rfl⟩
  · split_ifs at h <;> cases h <;> exact ⟨rfl, rfl⟩

theorem plainPseudoClass_eq_ok {f : Flags} {name : String} {c : Component}
    (h : plainPseudoClass f name = .ok c) (g : Flags) : c.fits g = true ∧ c.raised = {} := by
  unfold plainPseudoClass at h
  dsimp only at h
  split at h
  · cases h
  · split at h
    · rename_i hstructural
      cases h
      split at hstructural
      · cases hstructural
      · exact structural?_eq_some hstructural g
    · split_ifs at h <;> cases h <;> exact ⟨rfl, rfl⟩

theorem readOne_eq_ok {read : List Item → Except Failure (String × List Item)} {items : List Item}
    {args : Arguments} (h : readOne read items = .ok args) :
    ∃ n r, args = .names [n] ∧ read items = .ok (n, r) := by
  obtain ⟨⟨n, r⟩, hread, h⟩ := exists_of_bind_eq_ok h
  obtain ⟨m, hexhausted, h⟩ := exists_of_bind_eq_ok h
  obtain rfl := eq_of_exhausted_eq_ok hexhausted
  cases h
  exact ⟨n, r, rfl, hread⟩

theorem readTransition_eq_ok {items : List Item} {args : Arguments}
    (h : readTransition items = .ok args) : ∃ name classes, args = .transition name classes := by
  unfold readTransition at h
  generalize readTransitionName items = p at h
  obtain ⟨⟨classes, n⟩, -, h⟩ := exists_of_bind_eq_ok h
  dsimp only at h
  split at h
  · cases h
  · cases h
    exact ⟨_, _, rfl⟩

theorem readPseudoElement_eq_ok {f : Flags} {name : String} {items : List Item} {s : Simple}
    (h : readPseudoElement f name items = .ok s) (g : Flags) : s.IsRead g := by
  unfold readPseudoElement at h
  dsimp only at h
  split at h
  · split at h
    · cases h
    · obtain ⟨ns, -, rfl⟩ := exists_of_map_eq_ok h
      exact .element rfl rfl rfl
  · split at h
    · cases h
    · obtain ⟨cs, -, rfl⟩ := exists_of_map_eq_ok h
      exact .element rfl rfl rfl
  · obtain ⟨c, hc, rfl⟩ := exists_of_map_eq_ok h
    obtain ⟨cs, -, rfl⟩ := exists_of_map_eq_ok hc
    exact .element rfl rfl rfl
  · obtain ⟨c, hc, rfl⟩ := exists_of_map_eq_ok h
    obtain ⟨cs, -, rfl⟩ := exists_of_map_eq_ok hc
    exact .element rfl rfl rfl
  · obtain ⟨c, hc, rfl⟩ := exists_of_map_eq_ok h
    obtain ⟨args, hargs, rfl⟩ := exists_of_map_eq_ok hc
    obtain ⟨n, r, rfl, -⟩ := readOne_eq_ok hargs
    exact .element rfl rfl rfl
  · obtain ⟨c, hc, rfl⟩ := exists_of_map_eq_ok h
    obtain ⟨args, hargs, rfl⟩ := exists_of_map_eq_ok hc
    obtain ⟨n, r, rfl, -⟩ := readOne_eq_ok hargs
    exact .element rfl rfl rfl
  · split at h
    · obtain ⟨c, hc, rfl⟩ := exists_of_map_eq_ok h
      obtain ⟨args, hargs, rfl⟩ := exists_of_map_eq_ok hc
      obtain ⟨n, classes, rfl⟩ := readTransition_eq_ok hargs
      exact .element rfl rfl rfl
    · obtain ⟨args, hargs, rfl⟩ := exists_of_map_eq_ok h
      obtain ⟨ts, -, rfl⟩ := exists_of_map_eq_ok hargs
      exact .plain rfl rfl

theorem lower_lower (name : String) : Names.lower (Names.lower name) = Names.lower name := by
  simp only [Names.lower, String.toList_ofList, List.map_map, Function.comp_def,
    Char.toLower_toLower_eq_toLower]

/-- The name under which a pseudo-element is written is its own. -/
theorem pseudoElement?_of_eq_some {name s : String} (h : Names.pseudoElement? name = some s) :
    Names.pseudoElement? s = some s := by
  rw [Names.pseudoElement?] at h
  split_ifs at h with hrenamed hknown
  · cases h
    rfl
  · cases h
    rw [Names.pseudoElement?, lower_lower, if_neg hrenamed, if_pos hknown]

theorem isRead_plainPseudoElement (f : Flags) (name : String) :
    (plainPseudoElement name).IsRead f := by
  cases hs : Names.pseudoElement? name with
  | some s =>
    have hraised : (plainPseudoElement s).raised = (plainPseudoElement name).raised := by
      simp only [plainPseudoElement, hs, pseudoElement?_of_eq_some hs]
    have helement := Simple.IsRead.element (f := f) (k := .toPseudoElement)
      (c := .pseudoElement s .none) rfl rfl
      (by simp [Component.raised, plainPseudoElement, pseudoElement?_of_eq_some hs, knownElement,
        Flags.afterAny])
    rw [Component.raised, hraised] at helement
    rw [plainPseudoElement, hs] at helement ⊢
    exact helement
  | none =>
    rw [plainPseudoElement, hs]
    refine .plain rfl ?_
    rw [Component.raised, plainPseudoElement, hs]

/-- What is read behind colons, by the flags `g`, which need not be those it is read by. -/
theorem PseudoAt.isRead {f : Flags} {doubled : Bool} {inner : List Item} {t : Item} {s : Simple}
    (henter : ∀ entry f, t.enter entry f = readGroup t.token inner entry f)
    (h : PseudoAt f doubled t s) (g : Flags) : s.IsRead g := by
  cases h with
  | plainElement => exact isRead_plainPseudoElement _ _
  | plainClass _ _ hclass =>
    obtain ⟨hfits, hraised⟩ := plainPseudoClass_eq_ok hclass g
    exact .plain hfits hraised
  | element htoken _ _ _ h =>
    rw [henter, htoken] at h
    exact readPseudoElement_eq_ok h g
  | pseudoClass htoken _ h =>
    rw [henter, htoken] at h
    obtain ⟨c, hc, rfl⟩ := exists_of_map_eq_ok h
    obtain ⟨hfits, hraised⟩ := readPseudoClass_eq_ok hc g
    exact .plain hfits hraised

/-- Whether a component is a pseudo-class or a pseudo-element. -/
def Component.isPseudo : Component → Bool
  | .scope | .pseudoClass .. | .pseudoElement .. | .matching .. | .nth .. | .nthOf .. | .host _
  | .slotted _ | .cue .. => true
  | _ => false

/-- Where a pseudo-class or a pseudo-element comes from that is read by the flags `f`: a name, or a
name and the items in its brackets. -/
inductive Component.Origin (f : Flags) (c : Component) : Prop
  | plainClass {name} : name ≠ "" → isElementName false name = false →
      plainPseudoClass f name = .ok c → Origin f c
  | plainElement {name} : name ≠ "" → (f.afterElement || f.noPseudoElements) = false →
      (f.afterSlotted && !(Names.pseudoElement? name).any (· ∈ Names.slottable)) = false →
      c ∈ (plainPseudoElement name).components → Origin f c
  | pseudoClass {name inner} : SoundItems inner → isElementName false name = false →
      readPseudoClass f name inner = .ok c → Origin f c
  | pseudoElement {name inner s} : SoundItems inner →
      (f.afterElement || f.noPseudoElements) = false → f.afterSlotted = false →
      readPseudoElement f name inner = .ok s → c ∈ s.components → Origin f c

theorem isElementName_eq_false {doubled : Bool} {name : String}
    (h : isElementName doubled name = false) : isElementName false name = false := by
  simp only [isElementName, Bool.or_eq_false_iff, Bool.false_or] at h ⊢
  exact h.2

theorem PseudoAt.origin {f : Flags} {doubled : Bool} {items : List Item} {t : Item} {s : Simple}
    (hitems : SoundItems items) (ht : t ∈ items) (h : PseudoAt f doubled t s) {c : Component}
    (hc : c ∈ s.components) : c.Origin f := by
  obtain ⟨inner, hinner, henter⟩ := hitems.exists_enter ht
  have hname {name : String} (htoken : t.token = .ident name) : name ≠ "" :=
    hitems.name_ne_empty ht (by rw [htoken]; rfl)
  cases h with
  | plainElement htoken _ hbarred hslotted =>
    exact .plainElement (hname htoken) hbarred hslotted hc
  | plainClass htoken helement hclass =>
    obtain rfl := List.mem_singleton.1 hc
    exact .plainClass (hname htoken) (isElementName_eq_false helement) hclass
  | element htoken _ hbarred hslotted h =>
    rw [henter, htoken] at h
    exact .pseudoElement hinner hbarred hslotted h hc
  | pseudoClass htoken helement h =>
    rw [henter, htoken] at h
    obtain ⟨d, hd, rfl⟩ := exists_of_map_eq_ok h
    obtain rfl := List.mem_singleton.1 hc
    exact .pseudoClass hinner (isElementName_eq_false helement) hd

/-- What is left behind a simple selector. -/
theorem SimpleAt.isSuffix {f : Flags} {items r : List Item} {s : Simple}
    (h : SimpleAt f items s r) : r <:+ items := by
  cases h with
  | id ht | brackets ht | nesting ht => exact behind_of_dropComments ht
  | className ht _ _ hu | oneColon ht _ hu =>
    exact (behind_of_dropComments hu).trans (behind_of_dropComments ht)
  | twoColons ht _ hu _ hv =>
    have hbehind := (behind_of_dropComments hu).trans (behind_of_dropComments ht)
    exact (behind_of_dropComments hv).trans hbehind

/-- What is read as a simple selector from sound trees. -/
theorem SimpleAt.isRead {f : Flags} {items r : List Item} {s : Simple}
    (hitems : SoundItems items) (h : SimpleAt f items s r) : s.IsRead f := by
  cases h with
  | id ht htoken hafter =>
    have hne := hitems.name_ne_empty (head_mem_of_dropComments ht) (by rw [htoken]; rfl)
    exact .plain (by simp [Component.fits, hne, hafter]) rfl
  | className ht _ hafter hu htoken =>
    have hbehind := hitems.of_suffix (behind_of_dropComments ht)
    have hne := hbehind.name_ne_empty (head_mem_of_dropComments hu) (by rw [htoken]; rfl)
    exact .plain (by simp [Component.fits, hne, hafter]) rfl
  | brackets ht htoken hafter h =>
    obtain ⟨inner, hinner, henter⟩ := hitems.exists_enter (head_mem_of_dropComments ht)
    rw [henter, readGroup] at h
    obtain ⟨a, ha, rfl⟩ := exists_of_map_eq_ok h
    obtain ⟨hname, hqualifier⟩ := Attribute.read_eq_ok hinner ha
    exact .plain (by simp [Component.fits, hname, hqualifier, hafter]) rfl
  | nesting => exact .plain rfl rfl
  | oneColon ht _ hu _ h =>
    have hbehind := hitems.of_suffix (behind_of_dropComments ht)
    obtain ⟨inner, -, henter⟩ := hbehind.exists_enter (head_mem_of_dropComments hu)
    exact h.isRead henter f
  | twoColons ht _ hu _ hv h =>
    have hbehind := (hitems.of_suffix (behind_of_dropComments ht)).of_suffix
      (behind_of_dropComments hu)
    obtain ⟨inner, -, henter⟩ := hbehind.exists_enter (head_mem_of_dropComments hv)
    exact h.isRead henter f

/-- Where the pseudo-classes and pseudo-elements of a simple selector come from. -/
theorem SimpleAt.origin {f : Flags} {items r : List Item} {s : Simple} (hitems : SoundItems items)
    (h : SimpleAt f items s r) {c : Component} (hc : c ∈ s.components) (hpseudo : c.isPseudo = true) :
    c.Origin f := by
  cases h with
  | id | className | nesting =>
    obtain rfl := List.mem_singleton.1 hc
    cases hpseudo
  | brackets ht htoken _ h =>
    obtain ⟨inner, -, henter⟩ := hitems.exists_enter (head_mem_of_dropComments ht)
    rw [henter, readGroup] at h
    obtain ⟨a, -, rfl⟩ := exists_of_map_eq_ok h
    obtain rfl := List.mem_singleton.1 hc
    cases hpseudo
  | oneColon ht _ hu _ h =>
    exact h.origin (hitems.of_suffix (behind_of_dropComments ht)) (head_mem_of_dropComments hu) hc
  | twoColons ht _ hu _ hv h =>
    have hbehind := (hitems.of_suffix (behind_of_dropComments ht)).of_suffix
      (behind_of_dropComments hu)
    exact h.origin hbehind (head_mem_of_dropComments hv) hc

/-! ## Compounds and selectors -/

theorem Flags.afterAny_join (f g : Flags) : (f.join g).afterAny = (f.afterAny || g.afterAny) := by
  simp only [Flags.afterAny, Flags.join]
  cases f.afterSlotted <;> cases f.afterPart <;> cases f.afterElement <;> simp

/-- Simple selectors in a row, from the flags `f` to the flags `g`. -/
inductive Chain.IsRow : Flags → Chain → Flags → Prop
  | nil {f} : IsRow f [] f
  | plain {f g c cs} : c.fits f = true → c.raised = {} → IsRow f cs g → IsRow f (c :: cs) g
  | element {f g k c cs} : k.isVisible = false → c.fits f = true → c.raised.afterAny = true →
      IsRow (f.join c.raised) cs g → IsRow f (.combinator k :: c :: cs) g

namespace Chain

/-- Nothing, or the nesting selector. -/
def IsNesting (n : Chain) : Prop := n = [] ∨ n = [.nesting]

/-- The components that are read as a compound, from the flags `f` to the flags `g`. -/
inductive IsReadCompound (f : Flags) : Chain → Flags → Prop
  | mk {n y s g} : IsNesting n → IsTypeSelector y → (y = [] ∨ f.afterAny = false) → IsRow f s g →
      n ++ y ++ s ≠ [] → IsReadCompound f (n ++ y ++ s) g

/-- The components that are read as a selector by the flags `f`. -/
inductive IsRead (f : Flags) : Chain → Prop
  | compound {c g} : IsReadCompound f c g → IsRead f c
  | combinator {c k r} : f.isOpen = true → IsReadCompound f c f → k.isVisible = true → IsRead f r →
      IsRead f (c ++ .combinator k :: r)

/-- What `p` says of the pseudo-classes and pseudo-elements of a chain, each with the flags that are
raised in front of it. -/
def Along (p : Flags → Component → Prop) : Flags → Chain → Prop
  | _, [] => True
  | f, c :: r => (c.isPseudo = true → p f c) ∧ Along p (f.join c.raised) r

namespace IsRow

variable {f g h : Flags} {s t : Chain}

theorem afterAny_of_afterAny (hs : IsRow f s g) (hf : f.afterAny = true) : g.afterAny = true := by
  induction hs with
  | nil => exact hf
  | plain _ _ _ ih => exact ih hf
  | element _ _ _ _ ih => exact ih (by rw [Flags.afterAny_join, hf, Bool.true_or])

/-- Flags are raised by pseudo-elements that are known only. -/
theorem eq_of_not_afterAny (hs : IsRow f s g) (hg : g.afterAny = false) : g = f := by
  induction hs with
  | nil => rfl
  | plain _ _ _ ih => exact ih hg
  | element _ _ hraised hs _ =>
    have hafter := hs.afterAny_of_afterAny (by rw [Flags.afterAny_join, hraised, Bool.or_true])
    rw [hg] at hafter
    cases hafter

end IsRow

theorem IsReadCompound.eq_of_not_afterAny {c : Chain} {f g : Flags} (hc : IsReadCompound f c g)
    (hg : g.afterAny = false) : g = f := by
  obtain ⟨_, _, _, hrow, _⟩ := hc
  exact hrow.eq_of_not_afterAny hg

section Along

variable {p : Flags → Component → Prop} {f g : Flags}

theorem along_cons_of_not_isPseudo {c : Component} (hc : c.isPseudo = false) (hraised : c.raised = {})
    (r : Chain) : Along p f (c :: r) ↔ Along p f r := by
  rw [Along, hraised, Flags.join_empty]
  simp [hc]

theorem along_append_of_not_isPseudo {c : Chain}
    (hc : ∀ x ∈ c, x.isPseudo = false ∧ x.raised = {}) (r : Chain) :
    Along p f (c ++ r) ↔ Along p f r := by
  induction c with
  | nil => rfl
  | cons x c ih =>
    obtain ⟨hx, hraised⟩ := hc x List.mem_cons_self
    rw [List.cons_append, along_cons_of_not_isPseudo hx hraised,
      ih fun y hy => hc y (List.mem_cons_of_mem _ hy)]

/-- The head of a compound has no pseudo-classes. -/
theorem along_head {n y : Chain} (hn : IsNesting n) (hy : IsTypeSelector y) (r : Chain) :
    Along p f (n ++ y ++ r) ↔ Along p f r := by
  refine along_append_of_not_isPseudo (fun x hx => ?_) r
  have hqualifier {q : Option Namespace} (hx : x ∈ q.toList.map Component.qualifier) :
      x.isPseudo = false ∧ x.raised = {} := by
    obtain ⟨n, -, rfl⟩ := List.mem_map.1 hx
    exact ⟨rfl, rfl⟩
  rcases List.mem_append.1 hx with hx | hx
  · rcases hn with rfl | rfl
    · cases hx
    · obtain rfl := List.mem_singleton.1 hx
      exact ⟨rfl, rfl⟩
  · cases hy with
    | none => cases hx
    | tag | universal =>
      rcases List.mem_append.1 hx with hx | hx
      · exact hqualifier hx
      · obtain rfl := List.mem_singleton.1 hx
        exact ⟨rfl, rfl⟩

theorem IsRow.along_append {s : Chain} (hs : IsRow f s g) (r : Chain) :
    Along p f (s ++ r) ↔ Along p f s ∧ Along p g r := by
  induction hs with
  | nil => simp [Along]
  | plain _ hraised _ ih =>
    rw [List.cons_append, Along, Along, hraised, Flags.join_empty, ih, and_assoc]
  | @element f _ _ _ _ _ _ _ _ ih =>
    have hlink (k : Combinator) (r : Chain) : Along p f (.combinator k :: r) ↔ Along p f r :=
      along_cons_of_not_isPseudo rfl rfl r
    rw [List.cons_append, List.cons_append, hlink, hlink, Along, Along, ih, and_assoc]

theorem IsReadCompound.along_append {c : Chain} (hc : IsReadCompound f c g) (r : Chain) :
    Along p f (c ++ r) ↔ Along p f c ∧ Along p g r := by
  obtain ⟨hn, hy, -, hs, -⟩ := hc
  rw [List.append_assoc, along_head hn hy, along_head hn hy, hs.along_append]

end Along

end Chain

/-- What is read as simple selectors. -/
theorem readSimples_eq_ok {k : Nat} {p p' : Progress} (hitems : SoundItems p.rest)
    (h : readSimples k p = .ok p') :
    ∃ s, p'.components = p.components ++ s ∧ Chain.IsRow p.flags s p'.flags ∧
      Chain.Along (fun f c => c.Origin f) p.flags s ∧ p'.rest <:+ p.rest := by
  induction k generalizing p with
  | zero =>
    cases h
    exact ⟨[], by simp, .nil, trivial, List.suffix_rfl⟩
  | succ k ih =>
    rw [readSimples] at h
    split at h
    · cases h
      exact ⟨[], by simp, .nil, trivial, List.suffix_rfl⟩
    · cases h
    · rename_i s rest hs
      have hsimple := readSimple?_eq_ok.1 hs
      have horigin (c : Component) := hsimple.origin hitems (c := c)
      obtain ⟨cs, hcs, hrow, hcsorigin, hrest⟩ := ih (hitems.of_suffix hsimple.isSuffix) h
      refine ⟨s.components ++ cs, by simpa using hcs, ?_, ?_, hrest.trans hsimple.isSuffix⟩
      · cases hsimple.isRead hitems with
        | plain hfits hraised =>
          rw [Flags.join_empty] at hrow
          exact .plain hfits hraised hrow
        | element hk hfits hraised => exact .element hk hfits hraised hrow
      · cases hsimple.isRead hitems with
        | plain hfits hraised =>
          rw [Flags.join_empty] at hcsorigin
          refine ⟨horigin _ (by simp), ?_⟩
          rwa [hraised, Flags.join_empty]
        | element hk hfits hraised =>
          rw [List.cons_append, List.singleton_append, Chain.along_cons_of_not_isPseudo rfl rfl]
          exact ⟨horigin _ (by simp), hcsorigin⟩

theorem readNesting_eq {items r : List Item} {n : List Component}
    (h : readNesting items = (n, r)) : Chain.IsNesting n ∧ r <:+ items := by
  rw [readNesting] at h
  split at h
  · cases h
    exact ⟨.inl rfl, List.nil_suffix⟩
  · rename_i t r' ht
    split_ifs at h
    · cases h
      exact ⟨.inr rfl, behind_of_dropSkipped ht⟩
    · cases h
      exact ⟨.inl rfl, isSuffix_of_dropSkipped ht⟩

theorem readType_eq_ok {f : Flags} {items r : List Item} {cs : List Component}
    (hitems : SoundItems items) (h : readType f items = .ok (cs, r)) :
    Chain.IsTypeSelector cs ∧ (cs = [] ∨ f.afterAny = false) ∧ r <:+ items := by
  obtain ⟨⟨ds, r'⟩, htype, h⟩ := exists_of_bind_eq_ok h
  dsimp only at h
  split at h
  · cases h
  · rename_i hmay
    cases h
    obtain ⟨hcs, hr⟩ := readTypeName_eq_ok hitems htype
    exact ⟨hcs, by simpa [or_iff_not_imp_left] using hmay, hr⟩

/-- A compound is read as its head and then simple selectors. -/
theorem exists_readSimples {f : Flags} {items : List Item} {p : Progress}
    (hitems : SoundItems items) (h : readCompound f items = .ok p) :
    ∃ n y r, Chain.IsNesting n ∧ Chain.IsTypeSelector y ∧ (y = [] ∨ f.afterAny = false) ∧
      r <:+ items ∧ readSimples r.length { components := n ++ y, flags := f, rest := r } = .ok p := by
  rw [readCompound] at h
  cases hnesting : readNesting items with
  | mk n r =>
    rw [hnesting] at h
    obtain ⟨⟨y, r'⟩, htype, h⟩ := exists_of_bind_eq_ok h
    obtain ⟨hn, hr⟩ := readNesting_eq hnesting
    obtain ⟨hy, hmay, hr'⟩ := readType_eq_ok (hitems.of_suffix hr) htype
    exact ⟨n, y, r', hn, hy, hmay, hr'.trans hr, h⟩

/-- What is read as a compound. -/
theorem readCompound_eq_ok {f : Flags} {items : List Item} {p : Progress} (hitems : SoundItems items)
    (h : readCompound f items = .ok p) (hne : p.components ≠ []) :
    Chain.IsReadCompound f p.components p.flags ∧
      Chain.Along (fun f c => c.Origin f) f p.components ∧ p.rest <:+ items := by
  obtain ⟨n, y, r, hn, hy, hmay, hr, hsimples⟩ := exists_readSimples hitems h
  obtain ⟨s, hs, hrow, horigin, hrest⟩ := readSimples_eq_ok (hitems.of_suffix hr) hsimples
  rw [hs] at hne ⊢
  exact ⟨.mk hn hy hmay hrow hne, (Chain.along_head hn hy s).2 horigin, hrest.trans hr⟩

/-- What is left behind a combinator, which is one that is written. -/
theorem readCombinatorFrom_eq_some {blank : Bool} {here items all r : List Item} {k : Combinator}
    (hhere : here <:+ all) (hblank : blank = true → here.length < all.length)
    (hitems : items <:+ all) (h : readCombinatorFrom blank here items = (some k, r)) :
    r <:+ all ∧ r.length < all.length ∧ k.isVisible = true := by
  induction items generalizing blank here with
  | nil => cases h
  | cons t items ih =>
    have hbehind := (List.suffix_cons t items).trans hitems
    have hlt : items.length < all.length :=
      Nat.lt_of_lt_of_le (Nat.lt_succ_self _) hitems.length_le
    rw [readCombinatorFrom] at h
    split at h
    · exact ih hhere hblank hbehind h
    · exact ih hbehind (fun _ => hlt) hbehind h
    · split at h
      · rename_i hk
        cases h
        refine ⟨hbehind, hlt, ?_⟩
        unfold combinator? at hk
        split at hk <;> cases hk <;> rfl
      · split at h
        · rename_i hb
          cases h
          exact ⟨hhere, hblank hb, rfl⟩
        · cases h

/-- What is read as compounds and combinators. -/
theorem readCompounds_eq_ok {k : Nat} {f : Flags} {built chain : Chain} {items r : List Item}
    (hitems : SoundItems items) (hk : items.length < k)
    (h : readCompounds k f built items = .ok (chain, r)) :
    ∃ c, chain = built ++ c ∧ Chain.IsRead f c ∧ c.Along (fun f c => c.Origin f) f := by
  induction k generalizing built items with
  | zero => omega
  | succ k ih =>
    obtain ⟨p, hp, h⟩ := exists_of_bind_eq_ok h
    dsimp only at h
    split at h
    · cases h
    rename_i hne
    obtain ⟨hcompound, horigin, hsuffix⟩ := readCompound_eq_ok hitems hp (by simpa using hne)
    split at h
    · split at h
      · cases h
        exact ⟨_, rfl, .compound hcompound, horigin⟩
      · cases h
    rename_i hafter
    split at h
    · cases h
      exact ⟨_, rfl, .compound hcompound, horigin⟩
    · rename_i c r' hcombinator
      split at h
      · cases h
      rename_i hno
      obtain ⟨hr', hlt, hvisible⟩ := readCombinatorFrom_eq_some List.suffix_rfl
        (by rintro ⟨⟩) List.suffix_rfl hcombinator
      -- Only a compound that raised no flags has another one behind it.
      have hflags : p.flags = f := hcompound.eq_of_not_afterAny (by simpa using hafter)
      rw [hflags] at h hcompound hafter hno
      have hopen : f.isOpen = true := by simp [Flags.isOpen, hafter, hno]
      obtain ⟨d, rfl, hd, hdorigin⟩ := ih ((hitems.of_suffix hsuffix).of_suffix hr')
        (by have := hsuffix.length_le; omega) h
      refine ⟨_, by simp, .combinator hopen hcompound hvisible hd, ?_⟩
      rw [hcompound.along_append, Chain.along_cons_of_not_isPseudo rfl rfl]
      exact ⟨horigin, hdorigin⟩

/-- What is read as a selector from sound trees. -/
theorem readSelector_eq_ok {f : Flags} {items : List Item} {chain : Chain}
    (hitems : SoundItems items) (h : readSelector f items = .ok chain) :
    chain.IsRead f ∧ chain.Along (fun f c => c.Origin f) f := by
  obtain ⟨⟨c, r⟩, hread, h⟩ := exists_of_bind_eq_ok h
  obtain ⟨c', rfl, hc⟩ := readCompounds_eq_ok hitems (Nat.lt_succ_self _) hread
  obtain rfl := eq_of_exhausted_eq_ok h
  exact hc

/-! ## Selector lists -/

theorem mem_of_mem_segments {items seg : List Item} (hseg : seg ∈ segments items) {t : Item}
    (ht : t ∈ seg) : t ∈ items := by
  have hmem : t ∈ (segments items).flatten := List.mem_flatten.2 ⟨seg, hseg, ht⟩
  rw [segments, Sequence.flatten_splitWhere] at hmem
  exact List.mem_of_mem_filter hmem

theorem SoundItems.of_mem_segments {items seg : List Item} (h : SoundItems items)
    (hseg : seg ∈ segments items) : SoundItems seg :=
  fun t ht => h t (mem_of_mem_segments hseg ht)

theorem ne_nil_of_readSegments {α : Type} {read : List Item → Except Failure α}
    {segs : List (List Item)} {as : List α} (h : readSegments read segs = .ok as)
    (hne : segs ≠ []) : as ≠ [] := by
  obtain ⟨s, segs, rfl⟩ := List.exists_cons_of_ne_nil hne
  rw [readSegments] at h
  split at h
  · cases h
  · obtain ⟨bs, -, rfl⟩ := exists_of_map_eq_ok h
    exact List.cons_ne_nil _ _

/-- What is read from segments comes from one of them. -/
theorem exists_of_mem_readSegments {α : Type} {read : List Item → Except Failure α}
    {segs : List (List Item)} {as : List α} (h : readSegments read segs = .ok as) {a : α}
    (ha : a ∈ as) : ∃ seg ∈ segs, read seg = .ok a := by
  induction segs generalizing as with
  | nil =>
    cases h
    cases ha
  | cons seg segs ih =>
    rw [readSegments] at h
    split at h
    · cases h
    · rename_i b hb
      obtain ⟨bs, hbs, rfl⟩ := exists_of_map_eq_ok h
      rcases List.mem_cons.1 ha with rfl | ha
      · exact ⟨seg, List.mem_cons_self, hb⟩
      · obtain ⟨seg', hmem, hread⟩ := ih hbs ha
        exact ⟨seg', List.mem_cons_of_mem _ hmem, hread⟩

/-- Each chain of a selector list is read from a segment of the text. -/
theorem SelectorList.exists_of_mem_chains {w : List Char} {l : SelectorList} (h : read w = .ok l)
    {chain : Chain} (hchain : chain ∈ l.chains) :
    ∃ seg ∈ segments (Item.ofTrees (TokenTree.ofText w)), readSelector {} seg = .ok chain := by
  obtain ⟨ss, hss, rfl⟩ := exists_of_map_eq_ok h
  simp only [chains, List.map_map, List.mem_map, Function.comp_apply] at hchain
  obtain ⟨raw, hraw, rfl⟩ := hchain
  obtain ⟨seg, hseg, hread⟩ := exists_of_mem_readSegments hss hraw
  obtain ⟨c, hc, rfl⟩ := exists_of_map_eq_ok hread
  refine ⟨seg, hseg, ?_⟩
  show readSelector {} seg = .ok (chainOf c.toMatchOrder)
  rw [chainOf_toMatchOrder, hc]

/-- The chains of a selector list that a text holds. -/
theorem SelectorList.isRead_of_read {w : List Char} {l : SelectorList} (h : read w = .ok l) :
    ∀ chain ∈ l.chains, chain.IsRead {} ∧ chain.Along (fun f c => c.Origin f) {} := by
  intro chain hchain
  obtain ⟨seg, hseg, hread⟩ := exists_of_mem_chains h hchain
  exact readSelector_eq_ok ((SoundItems.ofText w).of_mem_segments hseg) hread

theorem SelectorList.read_of_parse {source : String} {l : SelectorList} (h : parse source = .ok l) :
    read source.toList = .ok l := by
  rw [parse] at h
  cases hread : read source.toList with
  | error f =>
    rw [hread] at h
    cases h
  | ok l' =>
    rw [hread] at h
    cases h
    rfl

/-- A text that is read has a selector. -/
theorem SelectorList.chains_ne_nil {w : List Char} {l : SelectorList} (h : read w = .ok l) :
    l.chains ≠ [] := by
  obtain ⟨ss, hss, rfl⟩ := exists_of_map_eq_ok h
  simpa [chains] using ne_nil_of_readSegments hss (Sequence.splitWhere_ne_nil _ _)

end MailCss
