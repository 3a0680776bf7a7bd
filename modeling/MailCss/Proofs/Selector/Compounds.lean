import MailCss.Proofs.Selector.Simples

/-!
# Reading compounds and selectors

Which items are read as simple selectors in a row (`ReadsSimples`), as a type selector
(`ReadsType`), as a compound (`ReadsCompound`) and as a selector (`ReadsSelector`), whatever has
been read before, and which are not read as a selector because a name stands where a compound has
ended (`BreaksSelector`).
-/

namespace MailCss

open Css (Token)

/-! ## Simple selectors in a row -/

/-- Items that are read as simple selectors in a row, from the flags `f` to the flags `g`. -/
inductive ReadsSimples : Flags → List Item → Flags → Prop
  | nil {f} : ReadsSimples f [] f
  | cons {f g items items' s} : SimpleAt f items s [] → (∀ t ∈ items.head?, t.isComment = false) →
      s.components ≠ [] → ReadsSimples (f.join s.raised) items' g →
      ReadsSimples f (items ++ items') g

theorem SimpleAt.ne_nil {f : Flags} {items r : List Item} {s : Simple}
    (h : SimpleAt f items s r) : items ≠ [] := by
  rintro rfl
  cases h <;> contradiction

namespace ReadsSimples

variable {f g h : Flags} {items items' : List Item}

theorem single {s : Simple} (hs : SimpleAt f items s [])
    (hhead : ∀ t ∈ items.head?, t.isComment = false) (hne : s.components ≠ []) :
    ReadsSimples f items (f.join s.raised) := by
  have hcons := cons hs hhead hne nil
  rwa [List.append_nil] at hcons

theorem append (hi : ReadsSimples f items g) (hi' : ReadsSimples g items' h) :
    ReadsSimples f (items ++ items') h := by
  induction hi with
  | nil => exact hi'
  | cons hs hhead hne _ ih =>
    rw [List.append_assoc]
    exact cons hs hhead hne (ih hi')

/-- They are read up to where no simple selector follows. -/
theorem readSimples_append (hi : ReadsSimples f items g) :
    ∃ cs, (items ≠ [] → cs ≠ []) ∧ ∀ k built rest, items.length ≤ k → readSimple? g rest = none →
      readSimples k ⟨built, f, items ++ rest⟩ = .ok ⟨built ++ cs, g, rest⟩ := by
  induction hi with
  | nil =>
    refine ⟨[], fun hne => absurd rfl hne, ?_⟩
    intro k built rest _ hrest
    cases k with
    | zero => simp [readSimples]
    | succ k => simp [readSimples, hrest]
  | @cons f g items items' s hs _ hne _ ih =>
    obtain ⟨cs, -, ih⟩ := ih
    refine ⟨s.components ++ cs, by simp [hne], ?_⟩
    intro k built rest hk hrest
    have hpos := List.length_pos_iff.2 hs.ne_nil
    rw [List.length_append] at hk
    obtain ⟨k, rfl⟩ : ∃ n, k = n + 1 := ⟨k - 1, by omega⟩
    have hread := readSimple?_eq_ok.2 (hs.append (items' ++ rest))
    rw [readSimples, List.append_assoc]
    simp only [hread, List.nil_append]
    rw [ih k _ rest (by omega) hrest, List.append_assoc]

end ReadsSimples

/-! ## Where a compound ends -/

/-- Nothing more, or white space or, if `names`, a name. -/
def Apart (names : Bool) (rest : List Item) : Prop :=
  ∀ t ∈ rest.head?, (∃ s, t.token = .whitespace s) ∨ names = true ∧ ∃ s, t.token = .ident s

namespace Apart

variable {names : Bool} {rest : List Item}

theorem dropComments_eq (h : Apart names rest) : dropComments rest = rest := by
  rcases rest with _ | ⟨t, r⟩
  · rfl
  · have ht : t.isComment = false := by
      rcases h t rfl with ⟨s, hs⟩ | ⟨-, s, hs⟩ <;> simp [Item.isComment, hs, Token.isComment]
    simp [dropComments, ht]

theorem readSimple?_eq_none (h : Apart names rest) (f : Flags) : readSimple? f rest = none := by
  rw [readSimple?, h.dropComments_eq]
  rcases rest with _ | ⟨t, r⟩
  · rfl
  · rcases h t rfl with ⟨s, hs⟩ | ⟨-, s, hs⟩ <;> simp [hs]

theorem isBar_eq_false (h : Apart names rest) : ∀ t ∈ rest.head?, Attribute.isBar t = false := by
  intro t ht
  rcases h t ht with ⟨s, hs⟩ | ⟨-, s, hs⟩ <;> simp [Attribute.isBar, hs]

end Apart

/-! ## Type selectors -/

/-- Items that are read as a type selector in front of anything but a bar. -/
def ReadsType (items : List Item) : Prop :=
  items ≠ [] ∧ (∀ t ∈ items.head?, t.token ≠ .delim '&' ∧ t.isSkipped = false) ∧
    ∃ cs, cs ≠ [] ∧ ∀ rest, (∀ t ∈ (dropComments rest).head?, Attribute.isBar t = false) →
      readTypeName (items ++ rest) = .ok (cs, rest)

/-- Items in front of which no type selector is read. -/
def BeginsNoType (items : List Item) : Prop := readTypeName items = .ok ([], items)

/-- What a simple selector begins with. -/
def beginsSimple : Token → Bool
  | .idHash _ | .delim '.' | .squareOpen | .colon | .delim '&' => true
  | _ => false

theorem SimpleAt.beginsSimple_head {f : Flags} {items r : List Item} {s : Simple}
    (h : SimpleAt f items s r) (hhead : ∀ t ∈ items.head?, t.isComment = false) :
    ∃ t, items.head? = some t ∧ beginsSimple t.token = true := by
  obtain ⟨t, items, rfl⟩ := List.exists_cons_of_ne_nil h.ne_nil
  have ht : t.isComment = false := hhead t rfl
  have hdrop : dropComments (t :: items) = t :: items := by simp [dropComments, ht]
  refine ⟨t, rfl, ?_⟩
  cases h <;> rename_i hitems htoken <;> simp_all [beginsSimple]

theorem beginsNoType_of_beginsSimple {t : Item} {items : List Item}
    (h : beginsSimple t.token = true) : BeginsNoType (t :: items) := by
  have ht : t.isComment = false := by
    unfold beginsSimple at h
    rw [Item.isComment]
    split at h <;> simp_all [Token.isComment]
  unfold BeginsNoType readTypeName
  simp only [dropComments, List.dropWhile_cons, ht]
  unfold beginsSimple at h
  split at h <;> simp_all

theorem isSkipped_of_beginsSimple {t : Item} (h : beginsSimple t.token = true) :
    t.isSkipped = false := by
  unfold beginsSimple at h
  rw [Item.isSkipped]
  split at h <;> simp_all [Token.isSkipped]

namespace ReadsSimples

variable {f g : Flags} {items : List Item}

theorem beginsSimple_head (h : ReadsSimples f items g) :
    ∀ t ∈ items.head?, beginsSimple t.token = true := by
  cases h with
  | nil =>
    rintro t ⟨⟩
  | cons hs hhead _ _ =>
    intro t ht
    obtain ⟨u, hu, hbegins⟩ := hs.beginsSimple_head hhead
    rw [List.head?_append, hu] at ht
    cases ht
    exact hbegins

/-- Simple selectors begin with no type selector, and neither does what ends their compound. -/
theorem beginsNoType_append {names : Bool} {rest : List Item} (h : ReadsSimples f items g)
    (hrest : Apart names rest) (hnames : names = true → items ≠ []) :
    BeginsNoType (items ++ rest) := by
  rcases items with _ | ⟨t, items⟩
  · rw [List.nil_append, BeginsNoType, readTypeName, hrest.dropComments_eq]
    rcases rest with _ | ⟨t, rest⟩
    · rfl
    · rcases hrest t rfl with ⟨s, hs⟩ | ⟨hn, -⟩
      · simp [hs]
      · exact absurd rfl (hnames hn)
  · exact beginsNoType_of_beginsSimple (h.beginsSimple_head t rfl)

/-- Where simple selectors begin with the nesting selector, what is behind it are simple selectors
too. -/
theorem of_ampersand {t : Item} (h : ReadsSimples f (t :: items) g) (ht : t.token = .delim '&') :
    ReadsSimples f items g := by
  generalize hall : t :: items = all at h
  cases h with
  | nil => cases hall
  | @cons _ _ items₁ items₂ s hs hhead hne htail =>
    obtain ⟨u, hu, -⟩ := hs.beginsSimple_head hhead
    obtain ⟨items₁, rfl⟩ := List.head?_eq_some_iff.1 hu
    obtain ⟨rfl, rfl⟩ := List.cons.inj hall
    have hcomment : t.isComment = false := by simp [Item.isComment, ht, Token.isComment]
    have hdrop : dropComments (t :: items₁) = t :: items₁ := by simp [dropComments, hcomment]
    cases hs <;> rename_i hitems htoken <;> simp_all [Flags.join]

end ReadsSimples

/-! ## Compounds -/

/-- Items that are read as a compound, from the flags `f` to the flags `g`, where it ends in front of
what is `Apart`. -/
def ReadsCompound (names : Bool) (f : Flags) (items : List Item) (g : Flags) : Prop :=
  ∃ cs, cs ≠ [] ∧ ∀ rest, Apart names rest →
    readCompound f (items ++ rest) = .ok ⟨cs, g, rest⟩

theorem readNesting_of_ampersand {t : Item} (ht : t.token = .delim '&') (items : List Item) :
    readNesting (t :: items) = ([.nesting], items) := by
  have hskipped : t.isSkipped = false := by simp [Item.isSkipped, ht, Token.isSkipped]
  simp [readNesting, dropSkipped, hskipped, ht]

theorem readNesting_of_not_ampersand {t : Item} (ht : t.token ≠ .delim '&')
    (hskipped : t.isSkipped = false) (items : List Item) :
    readNesting (t :: items) = ([], t :: items) := by
  simp [readNesting, dropSkipped, hskipped, ht]

section ReadCompound

variable {names : Bool} {f g : Flags} {t : Item} {type simples : List Item}

/-- A compound is read as its nesting selector, its type selector, which may not stand behind a
pseudo-element, and its simple selectors. -/
theorem readsCompound_of {items : List Item} (front cs : List Component)
    (hsimples : ReadsSimples f simples g) (hne : front ++ cs ≠ [] ∨ simples ≠ [])
    (hcs : cs = [] ∨ f.afterAny = false)
    (h : ∀ rest, Apart names rest → ∃ r, readNesting (items ++ rest) = (front, r) ∧
      readTypeName r = .ok (cs, simples ++ rest)) : ReadsCompound names f items g := by
  obtain ⟨ds, hds, hread⟩ := hsimples.readSimples_append
  refine ⟨front ++ cs ++ ds, ?_, ?_⟩
  · rcases hne with hne | hne
    · simp only [ne_eq, List.append_eq_nil_iff] at hne ⊢
      exact fun hnil => hne hnil.1
    · simp [hds hne]
  · intro rest hrest
    obtain ⟨r, hnesting, htype⟩ := h rest hrest
    have hmay : (!cs.isEmpty && f.afterAny) = false := by
      rcases hcs with rfl | hf
      · rfl
      · rw [hf, Bool.and_false]
    have htype' : readType f r = .ok (cs, simples ++ rest) := by
      rw [readType, htype]
      show (if (!cs.isEmpty && f.afterAny) = true then _ else _) = _
      rw [hmay]
      rfl
    rw [readCompound, hnesting]
    simp only [htype']
    exact hread _ _ _ (by simp) (hrest.readSimple?_eq_none g)

/-- In front of simple selectors, or of what ends their compound, a type selector ends. -/
theorem ReadsSimples.isBar_eq_false {f : Flags} {rest : List Item}
    (h : ReadsSimples f simples g) (hrest : Apart names rest) :
    ∀ t ∈ (dropComments (simples ++ rest)).head?, Attribute.isBar t = false := by
  rcases simples with _ | ⟨t, simples⟩
  · rw [List.nil_append, hrest.dropComments_eq]
    exact hrest.isBar_eq_false
  · have hbegins := h.beginsSimple_head t rfl
    have hcomment : t.isComment = false := by
      unfold beginsSimple at hbegins
      rw [Item.isComment]
      split at hbegins <;> simp_all [Token.isComment]
    have hdrop : dropComments (t :: simples ++ rest) = t :: simples ++ rest := by
      simp [dropComments, hcomment]
    rw [hdrop]
    rintro u ⟨⟩
    unfold beginsSimple at hbegins
    rw [Attribute.isBar]
    split at hbegins <;> simp_all

theorem readsCompound_nesting (ht : t.token = .delim '&') (hsimples : ReadsSimples f simples g)
    (hnames : names = true → simples ≠ []) : ReadsCompound names f (t :: simples) g := by
  refine readsCompound_of [.nesting] [] hsimples (.inl (by simp)) (.inl rfl) ?_
  intro rest hrest
  exact ⟨simples ++ rest, readNesting_of_ampersand ht _,
    hsimples.beginsNoType_append hrest hnames⟩

theorem readsCompound_nesting_type (hf : f.afterAny = false) (ht : t.token = .delim '&')
    (htype : ReadsType type) (hsimples : ReadsSimples f simples g) :
    ReadsCompound names f (t :: (type ++ simples)) g := by
  obtain ⟨-, -, cs, -, hread⟩ := htype
  refine readsCompound_of [.nesting] cs hsimples (.inl (by simp)) (.inr hf) ?_
  intro rest hrest
  refine ⟨type ++ (simples ++ rest), ?_, hread _ (hsimples.isBar_eq_false hrest)⟩
  rw [List.cons_append, List.append_assoc]
  exact readNesting_of_ampersand ht _

theorem readsCompound_type (hf : f.afterAny = false) (htype : ReadsType type)
    (hsimples : ReadsSimples f simples g) : ReadsCompound names f (type ++ simples) g := by
  obtain ⟨hne, hhead, cs, hcs, hread⟩ := htype
  refine readsCompound_of [] cs hsimples (.inl hcs) (.inr hf) ?_
  intro rest hrest
  refine ⟨type ++ (simples ++ rest), ?_, hread _ (hsimples.isBar_eq_false hrest)⟩
  obtain ⟨t, type, rfl⟩ := List.exists_cons_of_ne_nil hne
  obtain ⟨hampersand, hskipped⟩ := hhead t rfl
  rw [List.append_assoc]
  exact readNesting_of_not_ampersand hampersand hskipped _

theorem readsCompound_simples (hsimples : ReadsSimples f simples g) (hne : simples ≠ [])
    (hnames : names = true → ∀ t, simples = [t] → t.token ≠ .delim '&') :
    ReadsCompound names f simples g := by
  obtain ⟨t, simples, rfl⟩ := List.exists_cons_of_ne_nil hne
  by_cases ht : t.token = .delim '&'
  · refine readsCompound_nesting ht (hsimples.of_ampersand ht) ?_
    rintro hn rfl
    exact hnames hn t rfl ht
  · refine readsCompound_of [] [] hsimples (.inr hne) (.inl rfl) ?_
    intro rest hrest
    exact ⟨t :: simples ++ rest,
      readNesting_of_not_ampersand ht
        (isSkipped_of_beginsSimple (hsimples.beginsSimple_head t rfl)) _,
      hsimples.beginsNoType_append hrest fun _ => hne⟩

end ReadCompound

/-! ## Selectors -/

/-- White space and comments in front of a compound are passed over. -/
theorem readCompound_skip {t : Item} (ht : t.isSkipped = true) (f : Flags) (items : List Item) :
    readCompound f (t :: items) = readCompound f items := by
  have hnesting : readNesting (t :: items) = readNesting items := by
    simp [readNesting, dropSkipped, ht]
  rw [readCompound, readCompound, hnesting]

theorem readCompounds_skip {t : Item} (ht : t.isSkipped = true) (k : Nat) (f : Flags)
    (built : Chain) (items : List Item) :
    readCompounds k f built (t :: items) =
      if k = 0 then .ok (built, t :: items) else readCompounds k f built items := by
  cases k with
  | zero => rfl
  | succ k =>
    rw [readCompounds, readCompound_skip ht]
    rfl

/-- What `q` says of reading compounds from the items, whatever has been read before. -/
def CompoundsRead (f : Flags) (q : Except Failure (Chain × List Item) → Prop)
    (items : List Item) : Prop :=
  ∀ k built, items.length < k → q (readCompounds k f built items)

/-- Items that are read as a whole selector. -/
abbrev ReadsSelector (f : Flags) (items : List Item) : Prop :=
  CompoundsRead f (fun x => ∃ chain, x = .ok (chain, [])) items

/-- Items that are not read as a whole selector. -/
abbrev BreaksSelector (f : Flags) (items : List Item) : Prop :=
  CompoundsRead f (fun x => ∀ p, x = .ok p → dropSkipped p.2 ≠ []) items

theorem CompoundsRead.skip {f : Flags} {q : Except Failure (Chain × List Item) → Prop} {t : Item}
    {items : List Item} (ht : t.isSkipped = true) (h : CompoundsRead f q items) :
    CompoundsRead f q (t :: items) := by
  intro k built hk
  rw [readCompounds_skip ht, if_neg (by omega)]
  exact h k built (by simp only [List.length_cons] at hk; omega)

theorem ReadsSelector.readSelector {f : Flags} {items : List Item} (h : ReadsSelector f items) :
    ∃ chain, readSelector f items = .ok chain := by
  obtain ⟨chain, hchain⟩ := h (items.length + 1) [] (by omega)
  refine ⟨chain, ?_⟩
  rw [MailCss.readSelector, hchain]
  rfl

theorem BreaksSelector.readSelector {f : Flags} {items : List Item} (h : BreaksSelector f items)
    (chain : Chain) : readSelector f items ≠ .ok chain := by
  intro hread
  rw [MailCss.readSelector] at hread
  cases hchain : readCompounds (items.length + 1) f [] items with
  | error e =>
    rw [hchain] at hread
    cases hread
  | ok p =>
    rw [hchain] at hread
    have hne := h _ _ (Nat.lt_succ_self _) p hchain
    change exhausted p = .ok chain at hread
    rw [exhausted] at hread
    split at hread
    · contradiction
    · cases hread

theorem ReadsCompound.readsSelector {items : List Item} {f g : Flags}
    (h : ReadsCompound false f items g) : ReadsSelector f items := by
  intro k built hk
  obtain ⟨cs, hne, hread⟩ := h
  obtain ⟨k, rfl⟩ : ∃ n, k = n + 1 := ⟨k - 1, by omega⟩
  have hread' := hread [] (by rintro t ⟨⟩)
  rw [List.append_nil] at hread'
  refine ⟨built ++ cs, ?_⟩
  rw [readCompounds, hread']
  show (if cs.isEmpty = true then _ else _) = _
  rw [if_neg (by simpa using hne)]
  split
  · rfl
  · rfl

/-- A name right behind a compound is not read. -/
theorem ReadsCompound.breaksSelector {items rest : List Item} {f g : Flags} {t : Item} {s : String}
    (h : ReadsCompound true f items g) (ht : t.token = .ident s) :
    BreaksSelector f (items ++ t :: rest) := by
  intro k built hk p hp
  obtain ⟨cs, hne, hread⟩ := h
  obtain ⟨k, rfl⟩ : ∃ n, k = n + 1 := ⟨k - 1, by omega⟩
  have hskipped : t.isSkipped = false := by simp [Item.isSkipped, ht, Token.isSkipped]
  have hdrop : dropSkipped (t :: rest) = t :: rest := by simp [dropSkipped, hskipped]
  have hread' := hread (t :: rest) (by rintro u ⟨⟩; exact .inr ⟨rfl, s, ht⟩)
  rw [readCompounds, hread'] at hp
  change (if cs.isEmpty = true then _ else _) = _ at hp
  rw [if_neg (by simpa using hne)] at hp
  split at hp
  · simp only [hdrop] at hp
    cases hp
  · -- No combinator is in front of the name, so the selector is over and the name is left.
    have hcombinator : readCombinator (t :: rest) = (none, t :: rest) := by
      simp [readCombinator, readCombinatorFrom, ht, combinator?]
    simp only [hcombinator] at hp
    cases hp
    rw [hdrop]
    simp

section Combinator

variable {items items' : List Item} {s : String} {t u : Item}

/-- White space and an item that is neither skipped nor a combinator. -/
theorem readCombinator_descendant (ht : t.token = .whitespace s) (hu : u.isSkipped = false)
    (hnone : combinator? u.token = none) :
    readCombinator (t :: u :: items) = (some .descendant, u :: items) := by
  rw [Item.isSkipped] at hu
  simp only [readCombinator, readCombinatorFrom, ht]
  split <;> simp_all [Token.isSkipped]

/-- A combinator with white space in front of it. -/
theorem readCombinator_eq {c : Combinator} (ht : t.token = .whitespace s)
    (hu : combinator? u.token = some c) : readCombinator (t :: u :: items) = (some c, items) := by
  simp only [readCombinator, readCombinatorFrom, ht]
  split <;> simp_all [combinator?]

/-- Whether combinators and type selectors may stand behind the flags. -/
def Flags.isOpen (f : Flags) : Bool := !f.afterAny && !f.noCombinators

theorem Flags.afterAny_of_isOpen {f : Flags} (h : f.isOpen = true) : f.afterAny = false := by
  simp only [isOpen, Bool.and_eq_true, Bool.not_eq_true'] at h
  exact h.1

/-- Behind a compound and a combinator, reading goes on with the next compound. -/
theorem ReadsCompound.readsAs_append {f : Flags} {q : Except Failure (Chain × List Item) → Prop}
    {c : Combinator} {r : List Item} (hf : f.isOpen = true) (h : ReadsCompound false f items f)
    (ht : t.token = .whitespace s) (hread : readCombinator (t :: items') = (some c, r))
    (hlen : r.length ≤ items'.length) (hr : CompoundsRead f q r) :
    CompoundsRead f q (items ++ t :: items') := by
  intro k built hk
  obtain ⟨cs, hne, hcompound⟩ := h
  obtain ⟨k, rfl⟩ : ∃ n, k = n + 1 := ⟨k - 1, by omega⟩
  rw [List.length_append, List.length_cons] at hk
  have happart : Apart false (t :: items') := by
    rintro u ⟨⟩
    exact .inl ⟨s, ht⟩
  have hnext := hr k (built ++ cs ++ [.combinator c]) (by omega)
  simp only [Flags.isOpen, Bool.and_eq_true, Bool.not_eq_true'] at hf
  rw [readCompounds, hcompound _ happart]
  show q (if cs.isEmpty = true then _ else if f.afterAny = true then _ else _)
  rw [if_neg (by simpa using hne), hf.1, if_neg Bool.false_ne_true, hread]
  show q (if f.noCombinators = true then _ else _)
  rw [hf.2]
  exact hnext

end Combinator

end MailCss
