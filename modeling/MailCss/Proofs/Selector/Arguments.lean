import MailCss.Proofs.Selector.Brackets
import MailCss.Proofs.Selector.Keywords

/-!
# Arguments without selectors that are read back

What is written for names between commas, for names between spaces and for a view transition is read
again by the readers that they come from. What is written for any other tokens is, if it keeps their
brackets.

Main statements: `isLegible_of_readPseudoClassArguments` and `isLegible_of_isReadElement`.
-/

namespace MailCss

open Css

/-! ## Functions -/

/-- A name that reads as itself in front of a bracket, where `url` does not. -/
def IsCall (name : String) : Prop := IsWord name ∧ isUrlName name.toList = false

instance (name : String) : Decidable (IsCall name) := inferInstanceAs (Decidable (_ ∧ _))

section Calls

variable {F : List Char → Prop} {f : Flags} {name : String} {v w : List Char} {x : Lexeme}
  {ts : List TokenTree}

/-- A function behind one colon. -/
theorem writtenSimples_classGroup (hv : Spells Anything v [.group x ts [')']])
    (hx : x.token = .function name) (helement : isElementName false name = false) {c : Component}
    (hc : readPseudoClass f name (Item.ofTrees ts) = .ok c) : WrittenSimples f (':' :: v) f := by
  have henter : (Item.ofTree (.group x ts [')'])).enter .pseudoClass f =
      .ok { components := [c] } := by
    show readGroup x.token (Item.ofTrees ts) .pseudoClass f = _
    rw [hx, readGroup, hc]
    rfl
  have hspelled := spelledSimples_oneColon hv (.pseudoClass hx helement henter)
    (List.cons_ne_nil _ _)
  rw [Flags.join_empty] at hspelled
  exact .closed hspelled (by simp) rfl

/-- A function behind two colons. -/
theorem writtenSimples_elementGroup (hv : Spells Anything v [.group x ts [')']])
    (hx : x.token = .function name) (hbarred : (f.afterElement || f.noPseudoElements) = false)
    (hslotted : f.afterSlotted = false) {s : Simple}
    (hs : readPseudoElement f name (Item.ofTrees ts) = .ok s) :
    WrittenSimples f (':' :: ':' :: v) (f.join s.raised) := by
  have henter : (Item.ofTree (.group x ts [')'])).enter .pseudoElement f = .ok s := by
    show readGroup x.token (Item.ofTrees ts) .pseudoElement f = _
    rw [hx, readGroup, hs]
  have hne : s.components ≠ [] := by
    cases readPseudoElement_eq_ok hs f <;> exact List.cons_ne_nil _ _
  exact .closed (spelledSimples_twoColons hv (.element hx rfl hbarred hslotted henter) hne)
    (by simp) rfl

theorem IsCall.spells (h : IsCall name) (hw : Spells F w ts) (hF : ∀ r, F (')' :: r)) :
    ∃ x : Lexeme, Spells Anything (name.toList ++ inBrackets w) [.group x ts [')']] ∧
      x.token = .function name :=
  ⟨_, spells_call h.1.1 (by rw [h.1.2, h.2]) hw hF, by rw [h.1.2, String.ofList_toList]⟩

theorem IsCall.writtenSimples_class (h : IsCall name) (helement : isElementName false name = false)
    (hw : Spells F w ts) (hF : ∀ r, F (')' :: r)) {c : Component}
    (hc : readPseudoClass f name (Item.ofTrees ts) = .ok c) :
    WrittenSimples f (':' :: (name.toList ++ inBrackets w)) f := by
  obtain ⟨x, hspells, hx⟩ := h.spells hw hF
  exact writtenSimples_classGroup hspells hx helement hc

theorem IsCall.writtenSimples_element (h : IsCall name)
    (hbarred : (f.afterElement || f.noPseudoElements) = false) (hslotted : f.afterSlotted = false)
    (hw : Spells F w ts) (hF : ∀ r, F (')' :: r)) {s : Simple}
    (hs : readPseudoElement f name (Item.ofTrees ts) = .ok s) :
    WrittenSimples f (':' :: ':' :: (name.toList ++ inBrackets w)) (f.join s.raised) := by
  obtain ⟨x, hspells, hx⟩ := h.spells hw hF
  exact writtenSimples_elementGroup hspells hx hbarred hslotted hs

end Calls

theorem endsRuns_nil : EndsRuns [] where
  idents := endsIdents_nil
  equals := by simp [BeginsWithout]
  spaces := by
    rintro c ⟨⟩

theorem endsRuns_parenClose (r : List Char) : EndsRuns (')' :: r) := endsRuns_cons (by decide) r

theorem endsIdents_parenClose (r : List Char) : EndsIdents (')' :: r) :=
  (endsRuns_parenClose r).idents

/-! ## Names that are read -/

section Reading

variable {items r : List Item} {n : String} {ns : List String}

theorem readIdent_eq_ok (hitems : SoundItems items) (h : readIdent items = .ok (n, r)) :
    n ≠ "" ∧ r <:+ items := by
  rw [readIdent] at h
  split at h
  · cases h
  · rename_i t r' ht
    split at h
    · rename_i name htoken
      cases h
      exact ⟨hitems.name_ne_empty (head_mem_of_dropSkipped ht) (by rw [htoken]; rfl),
        behind_of_dropSkipped ht⟩
    · cases h

theorem readCustomIdent_eq_ok (hitems : SoundItems items) (h : readCustomIdent items = .ok (n, r)) :
    n ≠ "" ∧ Names.isCustom n = true := by
  obtain ⟨⟨m, r'⟩, hread, h⟩ := exists_of_bind_eq_ok h
  dsimp only at h
  split at h
  · rename_i hcustom
    cases h
    exact ⟨(readIdent_eq_ok hitems hread).1, hcustom⟩
  · cases h

/-- Each of the names between commas is read from some of the items. -/
theorem readCommaSeparated_eq_ok {read : List Item → Except Failure (String × List Item)}
    (hitems : SoundItems items) (h : readCommaSeparated read items = .ok ns) :
    ns ≠ [] ∧ ∀ n ∈ ns, ∃ s r, SoundItems s ∧ read s = .ok (n, r) := by
  refine ⟨ne_nil_of_readSegments h (Sequence.splitWhere_ne_nil _ _), fun n hn => ?_⟩
  obtain ⟨seg, hseg, hpart⟩ := exists_of_mem_readSegments h hn
  obtain ⟨⟨m, r⟩, hread, hexhausted⟩ := exists_of_bind_eq_ok hpart
  obtain rfl : m = n := eq_of_exhausted_eq_ok hexhausted
  exact ⟨_, r, (hitems.of_mem_segments hseg).of_suffix (List.dropWhile_suffix _), hread⟩

theorem readIdents_eq_ok {k : Nat} (hitems : SoundItems items) (h : readIdents k items = .ok ns) :
    (k ≠ 0 → ns ≠ []) ∧ ∀ n ∈ ns, n ≠ "" := by
  induction k generalizing items ns with
  | zero =>
    cases h
    exact ⟨fun hk => absurd rfl hk, by rintro n ⟨⟩⟩
  | succ k ih =>
    obtain ⟨⟨m, r⟩, hread, h⟩ := exists_of_bind_eq_ok h
    obtain ⟨hm, hr⟩ := readIdent_eq_ok hitems hread
    dsimp only at h
    split at h
    · cases h
      exact ⟨fun _ => List.cons_ne_nil _ _, by simpa using hm⟩
    · obtain ⟨ms, hms, h⟩ := exists_of_bind_eq_ok h
      cases h
      exact ⟨fun _ => List.cons_ne_nil _ _,
        List.forall_mem_cons.2 ⟨hm, (ih (hitems.of_suffix hr) hms).2⟩⟩

end Reading

/-! ## Names that are written -/

section Writing

variable {n : String} {ns : List String}

/-- What is written for a name of the author's own may be one. -/
theorem isCustom_unescape (h : Names.isCustom n = true) :
    Names.isCustom (String.ofList (unescape (identText n))) = true := by
  have hreserved : ∀ s ∈ Names.reserved, replacement ∉ s.toList := by decide
  simp only [Names.isCustom, decide_eq_true_eq] at h ⊢
  rw [identText, Written.unescape_ident]
  intro hmem
  by_cases hnul : '\x00' ∈ n.toList
  · -- A replacement stands in no reserved word.
    refine hreserved _ hmem ?_
    simp only [Names.lower, String.toList_ofList, List.mem_map]
    exact ⟨replacement, ⟨'\x00', hnul, rfl⟩, by decide⟩
  · have hliteral : n.toList.map literal = n.toList.map id := by
      refine List.map_congr_left fun c hc => if_neg ?_
      rintro rfl
      exact hnul hc
    rw [hliteral, List.map_id, String.ofList_toList] at hmem
    exact h hmem

/-- The item of a name. -/
abbrev nameItem (n : String) : Item := Item.ofTree (identLeaf (identText n))

theorem readCustomIdent_nameItem (h : Names.isCustom n = true) (r : List Item) :
    ∃ m, readCustomIdent (nameItem n :: r) = .ok (m, r) := by
  have hread : readIdent (nameItem n :: r) = .ok (String.ofList (unescape (identText n)), r) := rfl
  refine ⟨String.ofList (unescape (identText n)), ?_⟩
  simp only [readCustomIdent, hread, bind, Except.bind, isCustom_unescape h, if_true]
  rfl

theorem readOne_nameItem {read : List Item → Except Failure (String × List Item)} {m : String}
    (h : read [nameItem n] = .ok (m, [])) : readOne read [nameItem n] = .ok (.names [m]) := by
  rw [readOne, h]
  rfl

/-- Names between commas are read, if each of them is. -/
theorem exists_readCommaSeparated (read : List Item → Except Failure (String × List Item))
    (hne : ns ≠ []) (hns : ∀ n ∈ ns, n ≠ "" ∧ ∃ m, read [nameItem n] = .ok (m, [])) :
    ∃ ts ms, Spells EndsRuns (joinTexts ", ".toList (ns.map identText)) ts ∧
      readCommaSeparated read (Item.ofTrees ts) = .ok ms := by
  have hident (n : String) (hn : n ∈ ns) : IsIdent (identText n) := isIdent_identText (hns n hn).1
  have hpiece : IsPiece (joinTexts ", ".toList (ns.map identText)) := by
    refine isPiece_joinTexts (IsPiece.comma.append .space) fun w hw => ?_
    obtain ⟨n, hn, rfl⟩ := List.mem_map.1 hw
    exact .ident (hident n hn)
  obtain ⟨ts, hts⟩ := hpiece.spells
  obtain ⟨n, ns, rfl⟩ := List.exists_cons_of_ne_nil hne
  let part (items : List Item) := read (dropSkipped items) >>= exhausted
  have hparts := segments_joinTexts (p := fun _ items => ∃ m, part items = .ok m) []
    (fun w t items ht hread => by
      have hskip : dropSkipped (t :: items) = dropSkipped items := by simp [dropSkipped, ht]
      simpa only [part, hskip] using hread)
    (identText n) (ns.map identText) (fun v hv => by
      rw [← List.map_cons (f := identText)] at hv
      obtain ⟨n, hn, rfl⟩ := List.mem_map.1 hv
      obtain ⟨m, hm⟩ := (hns n hn).2
      refine ⟨identLeaf (identText n), [], (spells_ident (hident n hn)).mono fun _ hr => hr.1, rfl,
        by simp, m, ?_⟩
      have hread : read (dropSkipped (Item.ofTrees [identLeaf (identText n)])) = .ok (m, []) := hm
      simp only [part, hread]
      rfl) (by simp)
  rw [List.map_cons] at hts
  rw [List.nil_append, hts.ofText_eq endsRuns_nil] at hparts
  obtain ⟨ms, hms, -⟩ := readSegments_of_forall part hparts
  exact ⟨ts, ms, hts, hms⟩

theorem readIdents_skip {t : Item} {items : List Item} (ht : t.isSkipped = true) {k : Nat}
    {ms : List String} (h : readIdents k items = .ok ms) : readIdents k (t :: items) = .ok ms := by
  have hskip : dropSkipped (t :: items) = dropSkipped items := by simp [dropSkipped, ht]
  cases k with
  | zero => exact h
  | succ k =>
    obtain ⟨⟨m, r⟩, hread, h⟩ := exists_of_bind_eq_ok h
    have hread' : readIdent (t :: items) = .ok (m, r) := by
      rw [readIdent] at hread ⊢
      rw [hskip]
      split at hread
      · cases hread
      · split at hread
        · exact hread
        · cases hread
    rw [readIdents, hread']
    exact h

theorem exists_readIdents_succ {items r : List Item} {k : Nat} {ms : List String}
    (hfirst : readIdent items = .ok (n, r)) (h : readIdents k r = .ok ms) :
    ∃ ms, readIdents (k + 1) items = .ok ms := by
  rw [readIdents, hfirst]
  simp only [bind, Except.bind, h]
  split <;> exact ⟨_, rfl⟩

/-- Names between spaces are read. -/
theorem exists_readIdents (hns : ∀ n ∈ ns, n ≠ "") (hne : ns ≠ []) :
    ∃ ts, Spells EndsIdents (joinTexts [' '] (ns.map identText)) ts ∧ ns.length ≤ ts.length ∧
      ∀ k, ns.length ≤ k → ∃ ms, readIdents k (Item.ofTrees ts) = .ok ms := by
  induction ns with
  | nil => exact absurd rfl hne
  | cons n ns ih =>
    have hident := isIdent_identText (hns n List.mem_cons_self)
    cases ns with
    | nil =>
      refine ⟨_, spells_ident hident, Nat.le_refl 1, fun k hk => ?_⟩
      obtain ⟨k, rfl⟩ : ∃ j, k = j + 1 := ⟨k - 1, by simp at hk; omega⟩
      exact ⟨_, rfl⟩
    | cons m ns =>
      obtain ⟨ts, hts, hlen, hread⟩ := ih (fun a ha => hns a (List.mem_cons_of_mem _ ha)) (by simp)
      have hspace (r : List Char) :
          BeginsNoSpace (joinTexts [' '] ((m :: ns).map identText) ++ r) := by
        have hm := isIdent_identText (hns m (by simp))
        obtain ⟨v, hv⟩ := exists_joinTexts_cons [' '] (identText m) (ns.map identText)
        obtain ⟨d, u, hd⟩ := List.exists_cons_of_ne_nil hm.ne_nil
        rw [List.map_cons, hv, hd]
        rintro c ⟨⟩
        exact (hm.head _ (by rw [hd]; rfl)).2
      have hback := spells_space.append hts fun r _ => hspace r
      have hends (r : List Char) :
          EndsIdents ([' '] ++ joinTexts [' '] ((m :: ns).map identText) ++ r) :=
        endsIdents_cons (by decide) (by decide) _
      have htext : joinTexts [' '] ((n :: m :: ns).map identText) =
          identText n ++ ([' '] ++ joinTexts [' '] ((m :: ns).map identText)) := by simp [joinTexts]
      rw [htext]
      refine ⟨_, (spells_ident hident).append hback fun r _ => hends r, ?_, fun k hk => ?_⟩
      · simp only [List.length_append, List.length_cons, List.length_nil] at hlen ⊢
        omega
      obtain ⟨k, rfl⟩ : ∃ j, k = j + 1 := ⟨k - 1, by simp at hk; omega⟩
      obtain ⟨ms, hms⟩ := hread k (by simpa using hk)
      have hskipped := readIdents_skip (t := Item.ofTree (.leaf ⟨.whitespace " ", [' ']⟩)) rfl hms
      exact exists_readIdents_succ (r := Item.ofTree (.leaf ⟨.whitespace " ", [' ']⟩) ::
        Item.ofTrees ts) rfl hskipped

end Writing

/-! ## View transitions -/

section Transitions

variable {name : Option TransitionName} {classes : List String}

theorem readTransitionClasses_eq_ok {k n : Nat} {items : List Item} (hitems : SoundItems items)
    (h : readTransitionClasses k items = .ok (classes, n)) : ∀ c ∈ classes, c ≠ "" := by
  induction k generalizing items classes n with
  | zero =>
    cases h
    rintro c ⟨⟩
  | succ k ih =>
    rw [readTransitionClasses] at h
    split at h
    · cases h
      rintro c ⟨⟩
    · rename_i t r ht
      have hr := hitems.of_suffix (behind_of_dropComments ht)
      split_ifs at h with hpoint hlast
      · split at h
        · cases h
        · rename_i u r' hu
          split at h
          · rename_i c hc
            obtain ⟨⟨cs, m⟩, hcs, heq⟩ := exists_of_map_eq_ok h
            cases heq
            refine List.forall_mem_cons.2 ⟨?_, ih (hr.of_suffix (behind_of_dropComments hu)) hcs⟩
            exact hr.name_ne_empty (head_mem_of_dropComments hu) (by rw [hc]; rfl)
          · cases h
      · cases h
        rintro c ⟨⟩
      · cases h

/-- The name of a view transition may be one of the author's own, its classes have names, and there
is a name or a class. -/
structure IsTransition (name : Option TransitionName) (classes : List String) : Prop where
  named : ∀ n, name = some (.named n) → n ≠ "" ∧ Names.isCustom n = true
  classNames : ∀ c ∈ classes, c ≠ ""
  ne_nil : name = none → classes ≠ []

theorem isTransition_of_read {items : List Item} (hitems : SoundItems items)
    (h : readTransition items = .ok (.transition name classes)) : IsTransition name classes := by
  rw [readTransition] at h
  have hread : ∀ p, readTransitionName items = p →
      (∀ n, p.1 = some (.named n) → n ≠ "" ∧ Names.isCustom n = true) ∧ SoundItems p.2 := by
    rintro p rfl
    rw [readTransitionName]
    split
    · exact ⟨nofun, by rintro t ⟨⟩⟩
    · rename_i t r ht
      have hr := hitems.of_suffix (behind_of_dropSkipped ht)
      split
      · exact ⟨nofun, hr⟩
      · rename_i n hn
        split_ifs with hcustom
        · refine ⟨?_, hr⟩
          rintro m ⟨⟩
          exact ⟨hitems.name_ne_empty (head_mem_of_dropSkipped ht) (by rw [hn]; rfl), hcustom⟩
        · exact ⟨nofun, hitems.of_suffix (isSuffix_of_dropSkipped ht)⟩
      · exact ⟨nofun, hitems.of_suffix (isSuffix_of_dropSkipped ht)⟩
  generalize readTransitionName items = p at h hread
  obtain ⟨o, r⟩ := p
  obtain ⟨hnamed, hr⟩ := hread _ rfl
  obtain ⟨⟨cs, n⟩, hcs, h⟩ := exists_of_bind_eq_ok h
  dsimp only at h
  split_ifs at h with hnone
  · cases h
  · cases h
    exact ⟨hnamed, readTransitionClasses_eq_ok hr hcs, fun hname hnil => hnone ⟨hname, hnil⟩⟩

/-- The trees of classes. -/
def classTrees (classes : List String) : List TokenTree :=
  classes.flatMap fun c => [.leaf ⟨.delim '.', ['.']⟩, identLeaf (identText c)]

theorem endsCompounds_classes (classes : List String) {r : List Char} (hr : EndsCompounds r) :
    EndsCompounds ((classes.flatMap fun c => '.' :: identText c) ++ r) := by
  cases classes with
  | nil => exact hr
  | cons c classes => exact endsCompounds_cons (by decide) (by decide) _

theorem spells_classTrees (h : ∀ c ∈ classes, c ≠ "") : Spells EndsCompounds
    (classes.flatMap fun c => '.' :: identText c) (classTrees classes) := by
  induction classes with
  | nil => exact .nil
  | cons c classes ih =>
    have hident := isIdent_identText (h c List.mem_cons_self)
    have hclass := spells_point.append (spells_ident hident) fun r _ =>
      beginsNoDigit_append hident r
    exact hclass.append (ih fun d hd => h d (List.mem_cons_of_mem _ hd)) fun r hr =>
      (endsCompounds_classes classes hr).1

theorem length_le_length_classTrees (classes : List String) :
    classes.length ≤ (classTrees classes).length := by
  induction classes with
  | nil => exact Nat.le_refl _
  | cons c classes ih =>
    show classes.length + 1 ≤ (classTrees classes).length + 2
    omega

theorem readTransitionClasses_classTrees (classes : List String) {k : Nat}
    (hk : classes.length ≤ k) :
    ∃ cs n, readTransitionClasses k (Item.ofTrees (classTrees classes)) = .ok (cs, n) ∧
      cs.length = classes.length := by
  induction classes generalizing k with
  | nil => cases k <;> exact ⟨[], _, rfl, rfl⟩
  | cons c classes ih =>
    obtain ⟨k, rfl⟩ : ∃ j, k = j + 1 := ⟨k - 1, by simp at hk; omega⟩
    obtain ⟨cs, n, hcs, hlen⟩ := ih (by simpa using hk)
    refine ⟨String.ofList (unescape (identText c)) :: cs, n, ?_, by simp [hlen]⟩
    show (readTransitionClasses k (Item.ofTrees (classTrees classes))).map _ = _
    rw [hcs]
    rfl

theorem readTransitionName_ident {t : Item} {n : String} (ht : t.token = .ident n)
    (hcustom : Names.isCustom n = true) (r : List Item) :
    readTransitionName (t :: r) = (some (.named n), r) := by
  have hskip : dropSkipped (t :: r) = t :: r := by
    simp [dropSkipped, Item.isSkipped, ht, Token.isSkipped]
  simp only [readTransitionName, hskip, ht, hcustom, if_true]

/-- A view transition is read from what is written for it. -/
theorem exists_readTransition (h : IsTransition name classes) :
    ∃ ts args, Spells EndsCompounds (name.elim [] TransitionName.text ++
        classes.flatMap fun c => '.' :: identText c) ts ∧
      readTransition (Item.ofTrees ts) = .ok args := by
  have hclasses := spells_classTrees h.classNames
  have hk : classes.length ≤ (Item.ofTrees (classTrees classes)).length + 1 := by
    rw [Item.ofTrees_eq_map, List.length_map]
    exact Nat.le_succ_of_le (length_le_length_classTrees classes)
  obtain ⟨cs, n, hcs, hlen⟩ := readTransitionClasses_classTrees classes hk
  have hread {ts : List TokenTree} {o : Option TransitionName}
      (hname : readTransitionName (Item.ofTrees ts) = (o, Item.ofTrees (classTrees classes)))
      (ho : ¬ (o = none ∧ cs = [])) :
      readTransition (Item.ofTrees ts) = .ok (.transition o cs) := by
    simp only [readTransition, hname, hcs, bind, Except.bind, if_neg ho]
    rfl
  rcases name with _ | _ | m
  · obtain ⟨c, classes, rfl⟩ := List.exists_cons_of_ne_nil (h.ne_nil rfl)
    refine ⟨_, _, hclasses, hread rfl ?_⟩
    rintro ⟨-, rfl⟩
    cases hlen
  · refine ⟨_, _, spells_star.append hclasses fun r hr => (endsCompounds_classes classes hr).2,
      hread rfl ?_⟩
    rintro ⟨⟨⟩, -⟩
  · obtain ⟨hm, hcustom⟩ := h.named m rfl
    have hname := readTransitionName_ident (Item.token_ofTree (identLeaf (identText m)))
      (isCustom_unescape hcustom)
    refine ⟨_, _, (spells_ident (isIdent_identText hm)).append hclasses fun r hr =>
      (endsCompounds_classes classes hr).1, hread (hname _) ?_⟩
    rintro ⟨⟨⟩, -⟩

end Transitions

/-! ## Pseudo-classes -/

section PseudoClasses

variable {f g : Flags} {name : String} {items : List Item} {c : Component}

theorem readPseudoClass_eq_arguments (hformulas : Names.formulas.lookup (Names.lower name) = none)
    (hmatching : Names.matching.lookup (Names.lower name) = none)
    (hhost : Names.lower name ≠ "host") (hafter : f.afterAny = false) (items : List Item) :
    readPseudoClass f name items = readPseudoClassArguments name items := by
  simp only [readPseudoClass, hformulas, hmatching, hafter, if_neg hhost, Bool.false_eq_true,
    if_false]

/-- The pseudo-classes that `readPseudoClassArguments` gives, and what it reads for them. -/
inductive IsReadClass (name : String) (items : List Item) : Component → Prop
  | lang {ns} : readCommaSeparated readIdentOrString items = .ok ns →
      IsReadClass name items (.pseudoClass "lang" (.names ns))
  | dir {n} : n = "ltr" ∨ n = "rtl" → IsReadClass name items (.pseudoClass "dir" (.names [n]))
  | state {n r} : readCustomIdent items = .ok (n, r) →
      IsReadClass name items (.pseudoClass "state" (.names [n]))
  | transitionType {ns} : readCommaSeparated readCustomIdent items = .ok ns →
      IsReadClass name items (.pseudoClass "active-view-transition-type" (.names ns))
  | tokens {ts} : (∀ items, readPseudoClassArguments name items =
        (readArguments items).map (Component.pseudoClass name)) →
      readArguments items = .ok (.tokens ts) →
      IsReadClass name items (.pseudoClass name (.tokens ts))

theorem isReadClass_of_read (h : readPseudoClassArguments name items = .ok c) :
    IsReadClass name items c := by
  rw [readPseudoClassArguments] at h
  split at h
  · rename_i hl
    obtain ⟨ns, hns, rfl⟩ := exists_of_map_eq_ok h
    rw [hl]
    exact .lang hns
  · rename_i hl
    obtain ⟨args, hargs, rfl⟩ := exists_of_map_eq_ok h
    obtain ⟨n, r, rfl, hread⟩ := readOne_eq_ok hargs
    obtain ⟨⟨m, r'⟩, -, hread⟩ := exists_of_bind_eq_ok hread
    dsimp only at hread
    split_ifs at hread with hdirection
    · cases hread
      rw [hl]
      exact .dir hdirection
    · cases hread
  · rename_i hl
    obtain ⟨args, hargs, rfl⟩ := exists_of_map_eq_ok h
    obtain ⟨n, r, rfl, hread⟩ := readOne_eq_ok hargs
    rw [hl]
    exact .state hread
  · rename_i hl
    obtain ⟨ns, hns, rfl⟩ := exists_of_map_eq_ok h
    rw [hl]
    exact .transitionType hns
  · rename_i hlang hdir hstate htransition
    obtain ⟨args, hargs, rfl⟩ := exists_of_map_eq_ok h
    obtain ⟨ts, -, rfl⟩ := exists_of_map_eq_ok hargs
    refine .tokens (fun items => ?_) hargs
    rw [readPseudoClassArguments]
    split
    · exact (hlang ‹_›).elim
    · exact (hdir ‹_›).elim
    · exact (hstate ‹_›).elim
    · exact (htransition ‹_›).elim
    · rfl

/-- The pseudo-classes whose arguments are names. -/
def namedClasses : List String := ["lang", "dir", "state", "active-view-transition-type"]

theorem lower_of_mem_namedClasses {l : String} (hl : l ∈ namedClasses) : Names.lower l = l := by
  have hall : ∀ l ∈ namedClasses, Names.lower l = l := by decide
  exact hall l hl

theorem writtenSimples_namedClass {l : String} (hl : l ∈ namedClasses)
    (hafter : g.afterAny = false) {F : List Char → Prop} {w : List Char} {ts : List TokenTree}
    (hw : Spells F w ts) (hF : ∀ r, F (')' :: r))
    (hc : readPseudoClassArguments l (Item.ofTrees ts) = .ok c) :
    WrittenSimples g (':' :: (l.toList ++ inBrackets w)) g := by
  have hall : ∀ l ∈ namedClasses, IsCall l ∧ isElementName false l = false ∧
      Names.formulas.lookup (Names.lower l) = none ∧
      Names.matching.lookup (Names.lower l) = none ∧ Names.lower l ≠ "host" := by decide +kernel
  obtain ⟨hcall, helement, hformulas, hmatching, hhost⟩ := hall l hl
  exact hcall.writtenSimples_class helement hw hF
    ((readPseudoClass_eq_arguments hformulas hmatching hhost hafter _).trans hc)

theorem readDirection_nameItem {n : String} (hn : n = "ltr" ∨ n = "rtl") :
    ∃ m, readDirection [nameItem n] = .ok (m, []) := by
  have hread : readIdent [nameItem n] = .ok (String.ofList (unescape (identText n)), []) := rfl
  have hall : ∀ n ∈ ["ltr", "rtl"],
      Names.lower (String.ofList (unescape (identText n))) ∈ ["ltr", "rtl"] := by decide
  have hmem := hall n (by simpa using hn)
  simp only [List.mem_cons, List.not_mem_nil, or_false] at hmem
  refine ⟨Names.lower (String.ofList (unescape (identText n))), ?_⟩
  simp only [readDirection, hread, bind, Except.bind, if_pos hmem]
  rfl

/-- A pseudo-class with arguments that hold no selectors is read back, if no name in it is empty and
the brackets of its tokens are kept. -/
theorem isLegible_of_readPseudoClassArguments (hitems : SoundItems items)
    (hafter : g.afterAny = false) (helement : isElementName false name = false)
    (hformulas : Names.formulas.lookup (Names.lower name) = none)
    (hmatching : Names.matching.lookup (Names.lower name) = none)
    (hhost : Names.lower name ≠ "host") (h : readPseudoClassArguments name items = .ok c)
    (hnames : ∀ l ns, c = .pseudoClass l (.names ns) → "" ∉ ns)
    (htokens : ∀ l ts, c = .pseudoClass l (.tokens ts) → keepsBrackets l ts = true) :
    c.IsLegible g := by
  cases isReadClass_of_read h with
  | @lang ns hns =>
    have hl : "lang" ∈ namedClasses := by simp [namedClasses]
    obtain ⟨ts, ms, hts, hms⟩ := exists_readCommaSeparated readIdentOrString
      (readCommaSeparated_eq_ok hitems hns).1 fun n hn =>
        ⟨fun hempty => hnames _ ns rfl (hempty ▸ hn), _, rfl⟩
    refine (Component.isLegible_iff rfl).2 (writtenSimples_namedClass hl hafter hts
      endsRuns_parenClose (c := .pseudoClass "lang" (.names ms)) ?_)
    rw [readPseudoClassArguments, lower_of_mem_namedClasses hl]
    simp only [hms]
    rfl
  | @dir n hn =>
    have hl : "dir" ∈ namedClasses := by simp [namedClasses]
    have hne : n ≠ "" := by
      rcases hn with rfl | rfl <;> decide
    obtain ⟨m, hm⟩ := readDirection_nameItem hn
    refine (Component.isLegible_iff rfl).2 (writtenSimples_namedClass hl hafter
      (spells_ident (isIdent_identText hne)) endsIdents_parenClose
      (c := .pseudoClass "dir" (.names [m])) ?_)
    rw [readPseudoClassArguments, lower_of_mem_namedClasses hl]
    show (readOne readDirection [nameItem n]).map _ = _
    rw [readOne_nameItem hm]
    rfl
  | @state n r hn =>
    have hl : "state" ∈ namedClasses := by simp [namedClasses]
    obtain ⟨hne, hcustom⟩ := readCustomIdent_eq_ok hitems hn
    obtain ⟨m, hm⟩ := readCustomIdent_nameItem hcustom []
    refine (Component.isLegible_iff rfl).2 (writtenSimples_namedClass hl hafter
      (spells_ident (isIdent_identText hne)) endsIdents_parenClose
      (c := .pseudoClass "state" (.names [m])) ?_)
    rw [readPseudoClassArguments, lower_of_mem_namedClasses hl]
    show (readOne readCustomIdent [nameItem n]).map _ = _
    rw [readOne_nameItem hm]
    rfl
  | @transitionType ns hns =>
    have hl : "active-view-transition-type" ∈ namedClasses := by simp [namedClasses]
    obtain ⟨hne, hall⟩ := readCommaSeparated_eq_ok hitems hns
    obtain ⟨ts, ms, hts, hms⟩ := exists_readCommaSeparated readCustomIdent hne fun n hn => by
      obtain ⟨s, r, hs, hread⟩ := hall n hn
      obtain ⟨hne, hcustom⟩ := readCustomIdent_eq_ok hs hread
      exact ⟨hne, readCustomIdent_nameItem hcustom []⟩
    refine (Component.isLegible_iff rfl).2 (writtenSimples_namedClass hl hafter hts
      endsRuns_parenClose (c := .pseudoClass "active-view-transition-type" (.names ms)) ?_)
    rw [readPseudoClassArguments, lower_of_mem_namedClasses hl]
    simp only [hms]
    rfl
  | @tokens ts hsame hts =>
    obtain ⟨x, us, args, hspells, hx, hargs⟩ :=
      exists_spells_tokens hitems hts (htokens _ ts rfl)
    refine (Component.isLegible_iff rfl).2
      (writtenSimples_classGroup hspells hx helement (c := .pseudoClass name args) ?_)
    rw [readPseudoClass_eq_arguments hformulas hmatching hhost hafter, hsame, hargs]
    rfl

end PseudoClasses

/-! ## Pseudo-elements -/

section PseudoElements

variable {f g : Flags} {name : String} {items : List Item} {c : Component}

/-- The pseudo-elements that `readPseudoElement` gives, and what it reads for them. -/
inductive IsReadElement (f : Flags) (name : String) (items : List Item) : Component → Prop
  | part {ns} : f.afterAny = false → readIdents (items.length + 1) items = .ok ns →
      IsReadElement f name items (.pseudoElement "part" (.words ns))
  | slotted {inner} : f.afterAny = false → readMatchOrder f.inCompound items = .ok inner →
      IsReadElement f name items (.slotted inner)
  | cue {region inner} : readMatchOrder {} items = .ok inner →
      IsReadElement f name items (.cue region inner)
  | highlight {n r} : readCustomIdent items = .ok (n, r) →
      IsReadElement f name items (.pseudoElement "highlight" (.names [n]))
  | picker {n r} : readIdent items = .ok (n, r) →
      IsReadElement f name items (.pseudoElement "picker" (.names [n]))
  | transition {l n classes} : l ∈ Names.transitions →
      readTransition items = .ok (.transition n classes) →
      IsReadElement f name items (.pseudoElement l (.transition n classes))
  | tokens {ts} : (∀ f items, readPseudoElement f name items =
        (readArguments items).map fun args => { components := [.pseudoElement name args] }) →
      readArguments items = .ok (.tokens ts) →
      IsReadElement f name items (.pseudoElement name (.tokens ts))

theorem readPseudoElement_of_other (hpart : Names.lower name ≠ "part")
    (hslotted : Names.lower name ≠ "slotted") (hcue : Names.lower name ≠ "cue")
    (hregion : Names.lower name ≠ "cue-region") (hhighlight : Names.lower name ≠ "highlight")
    (hpicker : Names.lower name ≠ "picker") : readPseudoElement f name items =
      if Names.lower name ∈ Names.transitions then
        ((readTransition items).map (Component.pseudoElement (Names.lower name))).map fun c =>
          knownElement c { afterTransition := true }
      else (readArguments items).map fun args => { components := [.pseudoElement name args] } := by
  rw [readPseudoElement]
  dsimp only
  split
  · exact (hpart ‹_›).elim
  · exact (hslotted ‹_›).elim
  · exact (hcue ‹_›).elim
  · exact (hregion ‹_›).elim
  · exact (hhighlight ‹_›).elim
  · exact (hpicker ‹_›).elim
  · rfl

theorem isReadElement_of_read {s : Simple} (h : readPseudoElement f name items = .ok s)
    (hc : c ∈ s.components) (hpseudo : c.isPseudo = true) : IsReadElement f name items c := by
  -- The combinator in front is no pseudo-element.
  have hbehind {k : Combinator} {d : Component} (hc : c ∈ [.combinator k, d]) : c = d := by
    simp only [List.mem_cons, List.not_mem_nil, or_false] at hc
    rcases hc with rfl | rfl
    · cases hpseudo
    · rfl
  rw [readPseudoElement] at h
  dsimp only at h
  split at h
  · rename_i hl
    split_ifs at h with hafter
    · cases h
    obtain ⟨ns, hns, rfl⟩ := exists_of_map_eq_ok h
    rw [hbehind hc, hl]
    exact .part (by simpa using hafter) hns
  · split_ifs at h with hafter
    · cases h
    obtain ⟨inner, hinner, rfl⟩ := exists_of_map_eq_ok h
    rw [hbehind hc]
    exact .slotted (by simpa using hafter) hinner
  · obtain ⟨d, hd, rfl⟩ := exists_of_map_eq_ok h
    obtain ⟨inner, hinner, rfl⟩ := exists_of_map_eq_ok hd
    rw [hbehind hc]
    exact .cue hinner
  · obtain ⟨d, hd, rfl⟩ := exists_of_map_eq_ok h
    obtain ⟨inner, hinner, rfl⟩ := exists_of_map_eq_ok hd
    rw [hbehind hc]
    exact .cue hinner
  · rename_i hl
    obtain ⟨d, hd, rfl⟩ := exists_of_map_eq_ok h
    obtain ⟨args, hargs, rfl⟩ := exists_of_map_eq_ok hd
    obtain ⟨n, r, rfl, hread⟩ := readOne_eq_ok hargs
    rw [hbehind hc, hl]
    exact .highlight hread
  · rename_i hl
    obtain ⟨d, hd, rfl⟩ := exists_of_map_eq_ok h
    obtain ⟨args, hargs, rfl⟩ := exists_of_map_eq_ok hd
    obtain ⟨n, r, rfl, hread⟩ := readOne_eq_ok hargs
    rw [hbehind hc, hl]
    exact .picker hread
  · rename_i hpart hslotted hcue hregion hhighlight hpicker
    split_ifs at h with htransition
    · obtain ⟨d, hd, rfl⟩ := exists_of_map_eq_ok h
      obtain ⟨args, hargs, rfl⟩ := exists_of_map_eq_ok hd
      obtain ⟨n, classes, rfl⟩ := readTransition_eq_ok hargs
      rw [hbehind hc]
      exact .transition htransition hargs
    · obtain ⟨args, hargs, rfl⟩ := exists_of_map_eq_ok h
      obtain ⟨ts, -, rfl⟩ := exists_of_map_eq_ok hargs
      obtain rfl := List.mem_singleton.1 hc
      exact .tokens (fun f items => by
        rw [readPseudoElement_of_other hpart hslotted hcue hregion hhighlight hpicker,
          if_neg htransition]) hargs

/-- The pseudo-elements whose arguments are names. -/
def namedElements : List String := ["part", "highlight", "picker"] ++ Names.transitions

theorem writtenSimples_namedElement {l : String} (hl : l ∈ namedElements)
    (hbarred : (g.afterElement || g.noPseudoElements) = false) (hslotted : g.afterSlotted = false)
    {F : List Char → Prop} {w : List Char} {ts : List TokenTree} (hw : Spells F w ts)
    (hF : ∀ r, F (')' :: r)) {s : Simple} (hs : readPseudoElement g l (Item.ofTrees ts) = .ok s) :
    WrittenSimples g (':' :: ':' :: (l.toList ++ inBrackets w)) (g.join s.raised) := by
  have hall : ∀ l ∈ namedElements, IsCall l := by decide +kernel
  exact (hall l hl).writtenSimples_element hbarred hslotted hw hF hs

theorem readPseudoElement_part (hafter : f.afterAny = false) {ns : List String}
    (h : readIdents (items.length + 1) items = .ok ns) : readPseudoElement f "part" items =
      .ok { components := [.combinator .toPart, .pseudoElement "part" (.words ns)],
            raised := { afterPart := true } } := by
  have hlower : Names.lower "part" = "part" := by decide
  rw [readPseudoElement, hlower]
  show (if f.afterAny = true then _ else _) = _
  rw [hafter, if_neg Bool.false_ne_true, h]
  rfl

theorem readPseudoElement_transition {l : String} (hl : l ∈ Names.transitions) {args : Arguments}
    (h : readTransition items = .ok args) : readPseudoElement f l items =
      .ok (knownElement (.pseudoElement l args) { afterTransition := true }) := by
  have hall : ∀ l ∈ Names.transitions, Names.lower l = l ∧
      l ∉ ["part", "slotted", "cue", "cue-region", "highlight", "picker"] := by decide
  obtain ⟨hlower, hnone⟩ := hall l hl
  rw [← hlower] at hnone
  simp only [List.mem_cons, List.not_mem_nil, or_false, not_or] at hnone
  obtain ⟨hpart, hslotted, hcue, hregion, hhighlight, hpicker⟩ := hnone
  rw [readPseudoElement_of_other hpart hslotted hcue hregion hhighlight hpicker, hlower,
    if_pos hl, h]
  rfl

/-- A pseudo-element with arguments that hold no selectors is read back, if the brackets of its
tokens are kept. -/
theorem isLegible_of_isReadElement (he : f.Eases g) (hitems : SoundItems items)
    (hbarred : (f.afterElement || f.noPseudoElements) = false) (hslotted : f.afterSlotted = false)
    {l : String} {args : Arguments} (h : IsReadElement f name items (.pseudoElement l args))
    (htokens : ∀ ts, args = .tokens ts → keepsBrackets l ts = true) :
    (Component.pseudoElement l args).IsLegible g := by
  have hbarred' := he.barred hbarred
  have hslotted' : g.afterSlotted = false := he.afterSlotted ▸ hslotted
  cases h with
  | part hafter hns =>
    obtain ⟨hne, hnames⟩ := readIdents_eq_ok hitems hns
    obtain ⟨ts, hts, hlen, hread⟩ := exists_readIdents hnames (hne (by omega))
    obtain ⟨ms, hms⟩ := hread ((Item.ofTrees ts).length + 1) (by
      rw [Item.ofTrees_eq_map, List.length_map]
      omega)
    exact writtenSimples_namedElement (by simp [namedElements]) hbarred' hslotted' hts
      endsIdents_parenClose (readPseudoElement_part (he.afterAny ▸ hafter) hms)
  | @highlight n _ hn =>
    obtain ⟨hne, hcustom⟩ := readCustomIdent_eq_ok hitems hn
    obtain ⟨m, hm⟩ := readCustomIdent_nameItem hcustom []
    have hs : readPseudoElement g "highlight" (Item.ofTrees [identLeaf (identText n)]) =
        .ok (knownElement (.pseudoElement "highlight" (.names [m])) {}) := by
      have hlower : Names.lower "highlight" = "highlight" := by decide
      rw [readPseudoElement, hlower]
      show ((readOne readCustomIdent [nameItem n]).map _).map _ = _
      rw [readOne_nameItem hm]
      rfl
    exact writtenSimples_namedElement (by simp [namedElements]) hbarred' hslotted'
      (spells_ident (isIdent_identText hne)) endsIdents_parenClose hs
  | @picker n _ hn =>
    have hne := (readIdent_eq_ok hitems hn).1
    have hs : readPseudoElement g "picker" (Item.ofTrees [identLeaf (identText n)]) =
        .ok (knownElement (.pseudoElement "picker"
          (.names [String.ofList (unescape (identText n))])) {}) := by
      have hlower : Names.lower "picker" = "picker" := by decide
      rw [readPseudoElement, hlower]
      rfl
    exact writtenSimples_namedElement (by simp [namedElements]) hbarred' hslotted'
      (spells_ident (isIdent_identText hne)) endsIdents_parenClose hs
  | transition hl hn =>
    obtain ⟨ts, args, hts, hargs⟩ := exists_readTransition (isTransition_of_read hitems hn)
    exact writtenSimples_namedElement (List.mem_append_right _ hl) hbarred' hslotted' hts
      (fun r => ⟨endsIdents_parenClose r, (endsRuns_parenClose r).equals⟩)
      (readPseudoElement_transition hl hargs)
  | tokens hsame hts =>
    obtain ⟨x, us, args, hspells, hx, hargs⟩ := exists_spells_tokens hitems hts (htokens _ rfl)
    exact writtenSimples_elementGroup hspells hx hbarred' hslotted' (by rw [hsame, hargs]; rfl)

end PseudoElements

end MailCss
