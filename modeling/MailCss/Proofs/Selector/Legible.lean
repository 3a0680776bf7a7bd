import Mathlib.Tactic.Tauto
import MailCss.Proofs.Selector.Order
import MailCss.Proofs.Selector.Runs

/-!
# Simple selectors that are read back

What is written for a simple selector is read back as simple selectors (`WrittenSimples`) if it is a
name behind a point or a number sign, a pseudo-class or pseudo-element without arguments, one with
arguments that its reader takes, or an attribute. A name at its end goes on with the name of a type
selector that is written right behind it.
-/

namespace MailCss

open Css

/-! ## What is raised and what is left out -/

/-- The flags that a component raises where it is read. -/
def Component.raised : Component → Flags
  | .pseudoElement name .none => (plainPseudoElement name).raised
  | .pseudoElement _ (.words _) => { afterPart := true }
  | .pseudoElement _ (.names _) => { afterElement := true }
  | .pseudoElement _ (.transition ..) => { afterElement := true, afterTransition := true }
  | .slotted _ => { afterSlotted := true }
  | .cue .. => { afterElement := true }
  | _ => {}

/-- Whether what is written for a compound has its universal selector; `alone` says that nothing
is behind it that can stand for the compound. -/
def Printed.keepsUniversal (leading alone : Bool) (c : List Printed) : Bool :=
  let (qualified, behind) := behindNamespace leading c
  let universal :=
    match behind with
    | [p] => p.component.isUniversal
    | _ => false
  qualified || (universal && alone)

/-! ## Names that go on with a type selector -/

/-- The type selectors that a name may go on with. -/
def joints : List (List Char) := ["u".toList, "body".toList]

/-- Whether trees end in a name or in the bar of a namespace. -/
def endsInName (ts : List TokenTree) : Bool :=
  match ts.getLast? with
  | some (.leaf x) =>
    match x.token with
    | .ident _ | .idHash _ | .delim '|' => true
    | _ => false
  | _ => false

theorem isName_of_mem_joints {z : List Char} (hz : z ∈ joints) : IsName z ∧ unescape z = z := by
  have hall : ∀ z ∈ joints, IsName z ∧ unescape z = z := by decide
  exact hall z hz

theorem lower_getLast? (name : String) :
    (Names.lower name).toList.getLast? = name.toList.getLast?.map Char.toLower := by
  simp [Names.lower]

/-- A name that ends like a joint. -/
def EndsLikeJoint (name : String) : Prop :=
  name.toList.getLast? = some 'u' ∨ name.toList.getLast? = some 'y'

instance (name : String) : Decidable (EndsLikeJoint name) :=
  inferInstanceAs (Decidable (_ ∨ _))

theorem EndsLikeJoint.lower {name : String} (h : EndsLikeJoint name) :
    EndsLikeJoint (Names.lower name) := by
  rw [EndsLikeJoint, lower_getLast?]
  rcases h with h | h <;> rw [h]
  · exact .inl rfl
  · exact .inr rfl

theorem EndsLikeJoint.ne_ofList {name : String} (h : EndsLikeJoint name) {l : List Char}
    (hl : l.getLast? ≠ some 'u' ∧ l.getLast? ≠ some 'y') : name ≠ String.ofList l := by
  rintro rfl
  rw [EndsLikeJoint, String.toList_ofList] at h
  exact h.elim hl.1 hl.2

theorem EndsLikeJoint.not_mem {name : String} (h : EndsLikeJoint name) :
    name ∉ Names.oneColon ∧ name ∉ Names.scrollbarStates ∧
      name ∉ Names.slottable ++ Names.elements ++ Names.scrollbarElements := by
  simp only [Names.oneColon, Names.scrollbarStates, Names.slottable, Names.elements,
    Names.scrollbarElements, List.mem_append, List.mem_cons, List.not_mem_nil, or_false, not_or]
  and_intros <;> exact h.ne_ofList (by simp)

/-- No pseudo-element that is known has a name that ends like a joint. -/
theorem EndsLikeJoint.pseudoElement?_eq_none {name : String} (h : EndsLikeJoint name) :
    Names.pseudoElement? name = none := by
  have hne : Names.lower name ≠ "-ms-input-placeholder" := h.lower.ne_ofList (by simp)
  rw [Names.pseudoElement?, if_neg hne, if_neg h.lower.not_mem.2.2]

/-- Any pseudo-class whose name ends like a joint may stand where nothing restricts it. -/
theorem EndsLikeJoint.plainPseudoClass {name : String} (h : EndsLikeJoint name) :
    ∃ c, MailCss.plainPseudoClass {} name = .ok c := by
  have hwritten : Names.pseudoClass name ∉ Names.scrollbarStates := by
    rw [Names.pseudoClass]
    split
    · rename_i s hs
      have hall : ∀ p ∈ Names.renamedStates, p.2 ∉ Names.scrollbarStates := by
        simp [Names.renamedStates, Names.scrollbarStates]
      obtain ⟨l, r, heq, -⟩ := List.lookup_eq_some_iff.1 hs
      exact hall (Names.lower name, s) (by rw [heq]; simp)
    · split
      · exact h.lower.not_mem.2.1
      · exact h.not_mem.2.1
  cases hstructural : structural? name with
  | some c => exact ⟨c, by simp [MailCss.plainPseudoClass, Flags.afterAny, hstructural]⟩
  | none =>
    refine ⟨.pseudoClass (Names.pseudoClass name) .none, ?_⟩
    simp [MailCss.plainPseudoClass, Flags.afterAny, hstructural, hwritten]

/-! ## Pseudo-classes and pseudo-elements -/

section Pseudo

variable {F : List Char → Prop} {f : Flags} {doubled : Bool} {v w z : List Char} {t : TokenTree}
  {ts : List TokenTree} {s : Simple}

theorem PseudoAt.token_plain {t : Item} (h : PseudoAt f doubled t s) :
    t.token ≠ .colon ∧ t.isComment = false := by
  cases h <;> rename_i htoken _ <;> simp_all [Item.isComment, Token.isComment]

/-- A pseudo-class or pseudo-element behind one colon. -/
theorem spelledSimples_oneColon (hw : Spells F w [t]) (h : PseudoAt f false (Item.ofTree t) s)
    (hne : s.components ≠ []) :
    SpelledSimples F f (':' :: w) [.leaf ⟨.colon, [':']⟩, t] (f.join s.raised) := by
  have hspells : Spells F ([':'] ++ w) ([.leaf ⟨.colon, [':']⟩] ++ [t]) :=
    spells_colon.append hw fun _ _ => trivial
  have hs : SimpleAt f (Item.ofTrees [.leaf ⟨.colon, [':']⟩, t]) s [] :=
    .oneColon (dropComments_cons rfl _) rfl (dropComments_cons h.token_plain.2 _) h.token_plain.1 h
  exact .of_simpleAt hspells hs hne (by rintro c ⟨⟩; decide) (by rintro t ⟨⟩; rfl)

/-- A pseudo-element behind two colons. -/
theorem spelledSimples_twoColons (hw : Spells F w [t]) (h : PseudoAt f true (Item.ofTree t) s)
    (hne : s.components ≠ []) : SpelledSimples F f (':' :: ':' :: w)
      [.leaf ⟨.colon, [':']⟩, .leaf ⟨.colon, [':']⟩, t] (f.join s.raised) := by
  have hspells : Spells F ([':'] ++ ([':'] ++ w))
      ([.leaf ⟨.colon, [':']⟩] ++ ([.leaf ⟨.colon, [':']⟩] ++ [t])) :=
    spells_colon.append (spells_colon.append hw fun _ _ => trivial) fun _ _ => trivial
  have hs : SimpleAt f (Item.ofTrees [.leaf ⟨.colon, [':']⟩, .leaf ⟨.colon, [':']⟩, t]) s [] :=
    .twoColons (dropComments_cons rfl _) rfl (dropComments_cons rfl _) rfl
      (dropComments_cons h.token_plain.2 _) h
  exact .of_simpleAt hspells hs hne (by rintro c ⟨⟩; decide) (by rintro t ⟨⟩; rfl)

/-- A name with a joint behind it ends like a joint. -/
theorem endsLikeJoint_append (hv : IsIdent v) (hz : z ∈ joints) :
    EndsLikeJoint (String.ofList (unescape (v ++ z))) := by
  have hall : ∀ z ∈ joints, z.getLast? = some 'u' ∨ z.getLast? = some 'y' := by decide
  rw [unescape_append hv.name, (isName_of_mem_joints hz).2, EndsLikeJoint, String.toList_ofList,
    List.getLast?_append]
  rcases hall z hz with h | h <;> rw [h]
  · exact .inl rfl
  · exact .inr rfl

/-- With one colon, a name with a joint behind it is a pseudo-class. -/
theorem spelledSimples_oneColon_append (hv : IsIdent v) (hz : z ∈ joints) :
    SpelledSimples EndsIdents {} (':' :: (v ++ z)) [.leaf ⟨.colon, [':']⟩, identLeaf (v ++ z)] {} := by
  have hjoint := endsLikeJoint_append hv hz
  obtain ⟨c, hc⟩ := hjoint.plainPseudoClass
  have helement : isElementName false (String.ofList (unescape (v ++ z))) = false := by
    simp [isElementName, hjoint.lower.not_mem.1]
  exact spelledSimples_oneColon (spells_ident (hv.append (isName_of_mem_joints hz).1))
    (.plainClass (Item.token_ofTree _) helement hc) (by simp)

/-- With two colons, it is a pseudo-element that is not known. -/
theorem spelledSimples_twoColons_append (hv : IsIdent v) (hz : z ∈ joints) :
    SpelledSimples EndsIdents {} (':' :: ':' :: (v ++ z))
      [.leaf ⟨.colon, [':']⟩, .leaf ⟨.colon, [':']⟩, identLeaf (v ++ z)] {} := by
  have hplain : plainPseudoElement (String.ofList (unescape (v ++ z))) =
      { components := [.pseudoElement (String.ofList (unescape (v ++ z))) .none] } := by
    rw [plainPseudoElement, (endsLikeJoint_append hv hz).pseudoElement?_eq_none]
  have hs : PseudoAt {} true (Item.ofTree (identLeaf (v ++ z)))
      (plainPseudoElement (String.ofList (unescape (v ++ z)))) :=
    .plainElement (Item.token_ofTree _) rfl rfl rfl
  rw [hplain] at hs
  exact spelledSimples_twoColons (spells_ident (hv.append (isName_of_mem_joints hz).1)) hs (by simp)

end Pseudo

/-! ## Written components -/

/-- A text that is read as simple selectors and either ends with something closed or with a name,
which a joint may go on with where no flags are raised. -/
inductive WrittenSimples (f : Flags) (w : List Char) (g : Flags) : Prop
  | closed {ts} : SpelledSimples Anything f w ts g → ts ≠ [] → endsInName ts = false →
      WrittenSimples f w g
  | named {ts} : SpelledSimples EndsIdents f w ts g → endsInName ts = true → IsPiece w →
      (f = {} → g = {} → ∀ z ∈ joints, ∃ us, SpelledSimples EndsIdents {} (w ++ z) us {}) →
      WrittenSimples f w g

theorem Flags.join_eq_empty {f g : Flags} : f.join g = {} ↔ f = {} ∧ g = {} := by
  cases f
  cases g
  simp only [Flags.join, Flags.mk.injEq, Bool.or_eq_false_iff]
  tauto

theorem ReadsSimples.eq_empty {f g : Flags} {items : List Item} (h : ReadsSimples f items g)
    (hg : g = {}) : f = {} := by
  induction h with
  | nil => exact hg
  | cons _ _ _ _ ih => exact (Flags.join_eq_empty.1 (ih hg)).1

theorem endsInName_append {ts us : List TokenTree} (hne : us ≠ []) :
    endsInName (ts ++ us) = endsInName us := by
  obtain ⟨vs, u, rfl⟩ := (List.eq_nil_or_concat us).resolve_left hne
  simp only [endsInName, List.concat_eq_append, List.getLast?_append, List.getLast?_singleton,
    Option.some_or]

theorem endsIdents_nil : EndsIdents [] := by
  refine ⟨?_, ?_⟩ <;> rintro c ⟨⟩

namespace WrittenSimples

variable {f g h : Flags} {v w : List Char}

/-- The trees of written simple selectors. -/
theorem spelled (hw : WrittenSimples f w g) :
    ∃ ts, SpelledSimples EndsIdents f w ts g ∧ ts ≠ [] := by
  cases hw with
  | closed hspelled hne _ => exact ⟨_, hspelled.of_anything, hne⟩
  | named hspelled hends =>
    refine ⟨_, hspelled, ?_⟩
    rintro rfl
    cases hends

theorem ne_nil (hw : WrittenSimples f w g) : w ≠ [] := by
  rintro rfl
  obtain ⟨ts, hts, hne⟩ := hw.spelled
  exact hne (hts.spells.ofText_eq endsIdents_nil).symm

/-- They can be put in front of any text that runs on. -/
theorem isPiece (hw : WrittenSimples f w g) : IsPiece w := by
  have hne := hw.ne_nil
  cases hw with
  | closed hspelled =>
    obtain ⟨c, w, rfl⟩ := List.exists_cons_of_ne_nil hne
    have hall : simpleMarks.all endsRun = true := by decide
    exact .of_spells hspelled.spells (List.all_eq_true.1 hall c (hspelled.begins c rfl))
      fun _ _ _ _ => trivial
  | named _ _ hpiece => exact hpiece

theorem append (hv : WrittenSimples f v g) (hw : WrittenSimples g w h) :
    WrittenSimples f (v ++ w) h := by
  obtain ⟨ts, hts, -⟩ := hv.spelled
  have hpiece := hv.isPiece.append hw.isPiece
  have hw' := hw.ne_nil
  cases hw with
  | @closed us hspelled hne hends =>
    refine .closed (hts.append hspelled fun r _ hnil => absurd hnil hw') (by simp [hne]) ?_
    rw [endsInName_append hne, hends]
  | @named us hspelled hends _ hjoint =>
    have hne : us ≠ [] := by
      rintro rfl
      cases hends
    refine .named (hts.append hspelled fun r _ hnil => absurd hnil hw') ?_ hpiece ?_
    · rw [endsInName_append hne, hends]
    · intro hf hh z hz
      -- Nothing raises flags in between, if nothing does at the end.
      have hg := hspelled.reads.eq_empty hh
      obtain ⟨us', hus'⟩ := hjoint hg hh z hz
      subst hf hg
      refine ⟨ts ++ us', ?_⟩
      rw [List.append_assoc]
      exact hts.append hus' fun r _ hnil => absurd (List.append_eq_nil_iff.1 hnil).1 hw'

end WrittenSimples

theorem writtenSimples_className {f : Flags} {name : String} (hname : name ≠ "")
    (hf : f.afterAny = false) : WrittenSimples f ('.' :: identText name) f := by
  have hident := isIdent_identText hname
  refine .named (spelledSimples_className hident hf) rfl (.className hident) fun _ _ z hz => ?_
  exact ⟨_, spelledSimples_className (hident.append (isName_of_mem_joints hz).1) rfl⟩

theorem writtenSimples_id {f : Flags} {name : String} (hname : name ≠ "")
    (hf : f.afterAny = false) : WrittenSimples f ('#' :: identText name) f := by
  have hident := isIdent_identText hname
  refine .named (spelledSimples_id hident hf) rfl (.hash hident) fun _ _ z hz => ?_
  exact ⟨_, spelledSimples_id (hident.append (isName_of_mem_joints hz).1) rfl⟩

theorem writtenSimples_nesting {f : Flags} : WrittenSimples f ['&'] f :=
  .closed spelledSimples_nesting (by simp) rfl

theorem writtenSimples_attribute {f : Flags} {a : Attribute} (hname : a.name ≠ "")
    (hq : a.qualifier.all Namespace.isNamed = true) (hf : f.afterAny = false) :
    WrittenSimples f a.text f := by
  obtain ⟨inner, hspelled⟩ := spelledSimples_attribute a hq hname hf
  exact .closed hspelled (by simp) rfl

section Pseudo

variable {F : List Char → Prop} {f : Flags} {v w : List Char} {ts : List TokenTree} {s : Simple}

/-- A name behind one colon. -/
theorem writtenSimples_oneColon (hv : IsIdent v) (h : PseudoAt f false (Item.ofTree (identLeaf v)) s)
    (hne : s.components ≠ []) : WrittenSimples f (':' :: v) (f.join s.raised) :=
  .named (spelledSimples_oneColon (spells_ident hv) h hne) rfl (.pseudo hv) fun _ _ _ hz =>
    ⟨_, spelledSimples_oneColon_append hv hz⟩

/-- A name behind two colons. -/
theorem writtenSimples_twoColons (hv : IsIdent v) (h : PseudoAt f true (Item.ofTree (identLeaf v)) s)
    (hne : s.components ≠ []) : WrittenSimples f (':' :: ':' :: v) (f.join s.raised) :=
  .named (spelledSimples_twoColons (spells_ident hv) h hne) rfl (IsPiece.colon.append (.pseudo hv))
    fun _ _ _ hz => ⟨_, spelledSimples_twoColons_append hv hz⟩

/-- The tree of a function with arguments. -/
def callTree (v : List Char) (ts : List TokenTree) : TokenTree :=
  .group ⟨.function (String.ofList (unescape v)), v ++ ['(']⟩ ts [')']

/-- A name and, in brackets, arguments. -/
theorem spells_call (hv : IsIdent v) (hurl : isUrlName (unescape v) = false) (hw : Spells F w ts)
    (hF : ∀ r, F (')' :: r)) : Spells Anything (v ++ inBrackets w) [callTree v ts] := by
  have hopen (r : List Char) : lexemes (v ++ ['('] ++ r) =
      ⟨.function (String.ofList (unescape v)), v ++ ['(']⟩ :: lexemes r := by
    have hends : EndsNames ('(' :: r) := by
      rintro c ⟨⟩
      decide
    obtain ⟨c, t, heq, hscan⟩ := hv.scan hends (by rintro d ⟨⟩; decide)
    have hspan := hv.name.spanName_append hends
    rw [scanIdentLike_function (congrArg Prod.snd hspan) (by rw [hspan]; exact hurl), hspan] at hscan
    rw [List.append_assoc, List.singleton_append, heq]
    exact lexemes_eq_cons hscan (by rw [← heq]; simp)
  have hgroup := spells_group (x := ⟨.function (String.ofList (unescape v)), v ++ ['(']⟩)
    (y := ⟨.parenClose, [')']⟩) rfl hopen hw hF fun r => lexemes_cons_of_scan rfl
  simpa [inBrackets, callTree] using hgroup

end Pseudo

/-! ## What is written for compounds -/

namespace Printed

/-- What is written of a compound. -/
def written (kept : Bool) (c : List Printed) : List Printed :=
  if kept then c else c.filter fun p => !p.component.isUniversal

theorem compound_eq (leading : Bool) (next : Option Combinator) (c : List Printed) :
    compound leading next c = texts (written (keepsUniversal leading (keepsAlone next) c) c) := by
  rw [compound, written, keepsUniversal]
  exact (apply_ite texts _ _ _).symm

end Printed

end MailCss
