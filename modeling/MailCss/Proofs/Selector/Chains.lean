import MailCss.Proofs.Selector.Parsed

/-!
# What is written for a chain is read

A chain is written compound by compound (`Chain.textFrom`); what is written for a compound is what
is written for its head and for the simple selectors behind it (`Chain.headText`). A chain that was
read is read again from what is written for it, if its pseudo-classes and pseudo-elements are
(`Chain.IsLegible`) and no namespace is left without its star.

Main statement: `Chain.IsRead.writtenSelector`.
-/

namespace MailCss

open Css

/-! ## Texts of compounds -/

theorem printedAll_eq_map (c : Chain) : printedAll c = c.map fun x => ⟨x, x.text⟩ := by
  induction c with
  | nil => rfl
  | cons x c ih => rw [printedAll, ih, List.map_cons]

theorem printedAll_append (c d : Chain) : printedAll (c ++ d) = printedAll c ++ printedAll d := by
  simp [printedAll_eq_map]

@[simp] theorem Component.text_combinator (k : Combinator) :
    (Component.combinator k).text = k.text := rfl

@[simp] theorem Component.text_nesting : Component.nesting.text = ['&'] := rfl

@[simp] theorem Component.text_qualifier (n : Namespace) :
    (Component.qualifier n).text = n.text := rfl

@[simp] theorem Component.text_universal : Component.universal.text = ['*'] := rfl

@[simp] theorem Component.text_tag (name : String) : (Component.tag name).text = identText name := rfl

@[simp] theorem Component.text_scope : Component.scope.text = ":scope".toList := rfl

@[simp] theorem Component.text_pseudoClass (name : String) (args : Arguments) :
    (Component.pseudoClass name args).text = ':' :: name.toList ++ args.text := rfl

@[simp] theorem Component.text_pseudoElement (name : String) (args : Arguments) :
    (Component.pseudoElement name args).text = elementColons name args ++ name.toList ++ args.text :=
  rfl

@[simp] theorem Component.text_matching (m : Matching) (list : List (List Component)) :
    (Component.matching m list).text = m.text (printedLists list) := rfl

@[simp] theorem Component.text_nth (c : Counted) (f : AnPlusB) :
    (Component.nth c f).text = nthText c f := rfl

@[simp] theorem Component.text_nthOf (c : Counted) (f : AnPlusB) (list : List (List Component)) :
    (Component.nthOf c f list).text = ':' :: c.formulaName.toList ++
      inBrackets (f.text ++ " of ".toList ++ Printed.list true (printedLists list)) := rfl

@[simp] theorem Component.text_host (inner : List Component) : (Component.host inner).text =
    ":host".toList ++ inBrackets (Printed.selector false (printedAll inner)) := rfl

@[simp] theorem Component.text_slotted (inner : List Component) : (Component.slotted inner).text =
    "::slotted".toList ++ inBrackets (Printed.selector false (printedAll inner)) := rfl

@[simp] theorem Component.text_cue (region : Bool) (inner : List Component) :
    (Component.cue region inner).text = (if region then "::cue-region" else "::cue").toList ++
      inBrackets (Printed.selector false (printedAll inner)) := rfl

namespace Chain

/-- The texts of components in a row. -/
def rowText (c : Chain) : List Char := c.flatMap Component.text

@[simp] theorem rowText_nil : rowText [] = [] := rfl

@[simp] theorem rowText_cons (x : Component) (c : Chain) :
    rowText (x :: c) = x.text ++ rowText c := List.flatMap_cons

@[simp] theorem rowText_append (c d : Chain) : rowText (c ++ d) = rowText c ++ rowText d :=
  List.flatMap_append

theorem texts_printedAll (c : Chain) : Printed.texts (printedAll c) = rowText c := by
  rw [printedAll_eq_map, Printed.texts, List.flatMap_map]
  rfl

/-- What is written for the components at the head of a compound; `alone` says that nothing is
behind them that can stand for the compound. -/
def headText (leading alone : Bool) (c : Chain) : List Char :=
  Printed.texts (Printed.written (Printed.keepsUniversal leading alone (printedAll c)) (printedAll c))

/-- Components that are no universal selectors and no namespaces are written as they are. -/
def IsBare (c : Chain) : Prop := ∀ x ∈ c, x.isUniversal = false ∧ x.isQualifier = false

theorem written_of_not_universal {c : Chain} (hc : ∀ x ∈ c, x.isUniversal = false) (kept : Bool) :
    Printed.written kept (printedAll c) = printedAll c := by
  rw [Printed.written]
  split
  · rfl
  · rw [List.filter_eq_self]
    intro p hp
    rw [printedAll_eq_map, List.mem_map] at hp
    obtain ⟨x, hx, rfl⟩ := hp
    simpa using hc x hx

theorem headText_of_not_universal {c : Chain} (hc : ∀ x ∈ c, x.isUniversal = false)
    (leading alone : Bool) : headText leading alone c = rowText c := by
  rw [headText, written_of_not_universal hc, texts_printedAll]

theorem written_append (kept : Bool) (ps qs : List Printed) :
    Printed.written kept (ps ++ qs) = Printed.written kept ps ++ Printed.written kept qs := by
  cases kept <;> simp [Printed.written]

/-- Where a compound goes on with bare components, its universal selector is not alone. -/
theorem keepsUniversal_append {c d : Chain} (hc : c ≠ []) (hd : IsBare d) (leading alone : Bool) :
    Printed.keepsUniversal leading alone (printedAll (c ++ d)) =
      Printed.keepsUniversal leading (alone && d.isEmpty) (printedAll c) := by
  obtain ⟨x, c, rfl⟩ := List.exists_cons_of_ne_nil hc
  rw [printedAll_append]
  rcases d with _ | ⟨y, d⟩
  · simp [printedAll]
  have hy := hd y List.mem_cons_self
  simp only [printedAll, Printed.keepsUniversal, Printed.behindNamespace, List.cons_append,
    List.head?_cons, Option.any_some, List.isEmpty_cons, Bool.and_false, Bool.or_false]
  by_cases hfront : (leading && x.isNesting) = true
  · rcases c with _ | ⟨z, c⟩
    · rcases d with _ | ⟨z, d⟩ <;> simp [hfront, printedAll, hy]
    · by_cases hz : z.isQualifier = true <;> simp [hfront, printedAll, hz]
  · by_cases hx : x.isQualifier = true <;> simp [hfront, hx]

/-- Bare components are written behind the head of their compound, and the head is not alone if
there are any. -/
theorem headText_append {d : Chain} (hd : IsBare d) (leading alone : Bool) (c : Chain) :
    headText leading alone (c ++ d) = headText leading (alone && d.isEmpty) c ++ rowText d := by
  have hbare : ∀ x ∈ d, x.isUniversal = false := fun x hx => (hd x hx).1
  rcases c with _ | ⟨x, c⟩
  · rw [List.nil_append, headText_of_not_universal hbare]
    have hnil : headText leading (alone && d.isEmpty) [] = [] := by
      rw [headText_of_not_universal (by rintro x ⟨⟩), rowText_nil]
    rw [hnil, List.nil_append]
  · rw [headText, keepsUniversal_append (List.cons_ne_nil x c) hd, printedAll_append, written_append,
      written_of_not_universal hbare, Printed.texts, List.flatMap_append]
    have htexts := texts_printedAll d
    rw [Printed.texts] at htexts
    rw [htexts]
    rfl

/-! ## Compound by compound -/

/-- The compounds of a chain with their texts, as they are written. -/
def parts (chain : Chain) : List (List Printed) :=
  compoundsBy Printed.component (printedAll chain.toMatchOrder)

/-- The combinators of a chain, as they are written. -/
def links (chain : Chain) : List Combinator :=
  combinatorsBy Printed.component (printedAll chain.toMatchOrder)

/-- What is written for a chain; `leading` says that nothing has been written in front. -/
def textFrom (leading : Bool) (chain : Chain) : List Char :=
  Printed.compounds leading false chain.parts chain.links

section Parts

variable {c r : Chain} {k : Combinator}

theorem printedAll_isCombinator (hc : IsCompound c) :
    ∀ p ∈ printedAll c, p.component.isCombinator = false := by
  intro p hp
  rw [printedAll_eq_map, List.mem_map] at hp
  obtain ⟨x, hx, rfl⟩ := hp
  exact hc x hx

theorem parts_of_isCompound (hc : IsCompound c) : parts c = [printedAll c] := by
  rw [parts, toMatchOrder_of_isCompound hc, compoundsBy_of_isCompound (printedAll_isCombinator hc)]

theorem links_of_isCompound (hc : IsCompound c) : links c = [] := by
  rw [links, toMatchOrder_of_isCompound hc, combinatorsBy_of_isCompound (printedAll_isCombinator hc)]

theorem parts_append (hc : IsCompound c) (k : Combinator) (r : Chain) :
    parts (c ++ .combinator k :: r) = printedAll c :: parts r := by
  rw [parts, toMatchOrder_append_combinator hc, printedAll_append, printedAll,
    compoundsBy_append (printedAll_isCombinator hc) rfl]
  rfl

theorem links_append (hc : IsCompound c) (k : Combinator) (r : Chain) :
    links (c ++ .combinator k :: r) = k :: links r := by
  rw [links, toMatchOrder_append_combinator hc, printedAll_append, printedAll,
    combinatorsBy_append (printedAll_isCombinator hc) rfl]
  rfl

theorem textFrom_of_isCompound (hc : IsCompound c) (leading : Bool) :
    textFrom leading c = headText leading true c := by
  rw [textFrom, parts_of_isCompound hc, links_of_isCompound hc]
  cases c with
  | nil => cases leading <;> rfl
  | cons x c =>
    simp [Printed.compounds, printedAll, Printed.compound_eq, headText, Printed.keepsAlone]

/-- A compound and the combinator behind it are written in front of what follows. -/
theorem textFrom_append (hc : IsCompound c) (hne : c ≠ []) (hk : k.isVisible = true)
    (leading : Bool) (r : Chain) :
    textFrom leading (c ++ .combinator k :: r) =
      headText leading true c ++ (k.text ++ textFrom false r) := by
  have halone : Printed.keepsAlone (some k) = true := by
    cases k <;> first | rfl | cases hk
  obtain ⟨x, c, rfl⟩ := List.exists_cons_of_ne_nil hne
  rw [textFrom, parts_append hc, links_append hc]
  simp [Printed.compounds, printedAll, Printed.compound_eq, headText, halone, textFrom]

end Parts

/-! ## Pseudo-elements behind a compound -/

/-- Behind combinators that are not written, compounds without universal selectors are written as
they are. -/
theorem compounds_eq_flatMap {cs : List (List Printed)} {ks : List Combinator}
    (hcs : ∀ c ∈ cs, ∀ p ∈ c, p.component.isUniversal = false) (hks : ∀ k ∈ ks, k.text = [])
    (leading : Bool) : Printed.compounds leading false cs ks = cs.flatMap Printed.texts := by
  induction cs generalizing leading ks with
  | nil => rfl
  | cons c cs ih =>
    have hcs' (ks : List Combinator) (hks : ∀ k ∈ ks, k.text = []) :=
      ih (fun d hd => hcs d (List.mem_cons_of_mem _ hd)) hks
    cases c with
    | nil => simpa [Printed.compounds, Printed.texts] using hcs' ks hks leading
    | cons p c =>
      have hwritten (kept : Bool) : Printed.written kept (p :: c) = p :: c := by
        rw [Printed.written]
        split
        · rfl
        · rw [List.filter_eq_self]
          intro q hq
          simpa using hcs (p :: c) List.mem_cons_self q hq
      have hlink : ks.head?.elim [] Combinator.text = [] := by
        cases ks with
        | nil => rfl
        | cons k ks => exact hks k List.mem_cons_self
      have hdrop := hcs' (ks.drop 1) (fun k hk => hks k (List.mem_of_mem_drop hk)) false
      simp only [Printed.compounds, Bool.false_and, Bool.false_eq_true, if_false,
        List.isEmpty_cons, Printed.compound_eq, hwritten, hlink, Bool.not_false, hdrop]
      simp

/-- Combinators that are not written, and components other than universal selectors. -/
def IsUnlinked (c : Chain) : Prop :=
  ∀ x ∈ c, x.isUniversal = false ∧ ∀ k, x = .combinator k → k.isVisible = false

theorem flatMap_parts {c : Chain} (hc : IsUnlinked c) :
    (∀ d ∈ parts c, ∀ p ∈ d, p.component.isUniversal = false) ∧ (∀ k ∈ links c, k.text = []) ∧
      (parts c).flatMap Printed.texts = rowText c := by
  have hprinted {d : Chain} (hd : IsUnlinked d) :
      ∀ p ∈ printedAll d, p.component.isUniversal = false := by
    intro p hp
    rw [printedAll_eq_map, List.mem_map] at hp
    obtain ⟨x, hx, rfl⟩ := hp
    exact (hd x hx).1
  induction c using compound_induction with
  | compound d hd =>
    rw [parts_of_isCompound hd, links_of_isCompound hd]
    refine ⟨?_, by simp, by simp [texts_printedAll]⟩
    rintro e he
    obtain rfl := List.mem_singleton.1 he
    exact hprinted hc
  | combinator d k r hd ih =>
    obtain ⟨huniversal, hlinks, htexts⟩ :=
      ih fun x hx => hc x (List.mem_append_right _ (List.mem_cons_of_mem _ hx))
    have hk : k.text = [] := Combinator.text_of_not_isVisible ((hc (.combinator k) (by simp)).2 k rfl)
    rw [parts_append hd, links_append hd]
    refine ⟨?_, ?_, ?_⟩
    · intro e he
      rcases List.mem_cons.1 he with rfl | he
      · exact hprinted fun x hx => hc x (List.mem_append_left _ hx)
      · exact huniversal e he
    · intro l hl
      rcases List.mem_cons.1 hl with rfl | hl
      · exact hk
      · exact hlinks l hl
    · rw [List.flatMap_cons, htexts, texts_printedAll, rowText_append, rowText_cons,
        Component.text_combinator, hk, List.nil_append]

theorem textFrom_of_isUnlinked {c : Chain} (hc : IsUnlinked c) (leading : Bool) :
    textFrom leading c = rowText c := by
  obtain ⟨huniversal, hlinks, htexts⟩ := flatMap_parts hc
  rw [textFrom, compounds_eq_flatMap huniversal hlinks, htexts]

/-- A compound in front of pseudo-elements that are joined to it. -/
theorem textFrom_append_unlinked {c r : Chain} {k : Combinator} (hc : IsCompound c)
    (hne : c ≠ []) (hr : IsUnlinked (.combinator k :: r)) (leading : Bool) :
    textFrom leading (c ++ .combinator k :: r) =
      headText leading (Printed.keepsAlone (some k)) c ++ rowText (.combinator k :: r) := by
  have hrest : textFrom false r = rowText r :=
    textFrom_of_isUnlinked (fun x hx => hr x (List.mem_cons_of_mem _ hx)) false
  obtain ⟨x, c, rfl⟩ := List.exists_cons_of_ne_nil hne
  rw [textFrom, parts_append hc, links_append hc, rowText_cons, ← hrest]
  simp [Printed.compounds, printedAll, Printed.compound_eq, headText, textFrom]

end Chain

/-! ## Simple selectors behind a head -/

theorem Component.isBare_of_fits {f : Flags} {c : Component} (h : c.fits f = true) :
    c.isUniversal = false ∧ c.isQualifier = false ∧ c.isCombinator = false := by
  cases c <;> first | exact ⟨rfl, rfl, rfl⟩ | cases h

namespace Chain

theorem IsRow.isUnlinked {f g : Flags} {s : Chain} (hs : IsRow f s g) : IsUnlinked s := by
  have hfits {f : Flags} {c : Component} (hc : c.fits f = true) :
      c.isUniversal = false ∧ ∀ k, c = .combinator k → k.isVisible = false := by
    refine ⟨(Component.isBare_of_fits hc).1, ?_⟩
    rintro k rfl
    cases hc
  induction hs with
  | nil =>
    rintro x ⟨⟩
  | plain hc _ _ ih =>
    intro x hx
    rcases List.mem_cons.1 hx with rfl | hx
    · exact hfits hc
    · exact ih x hx
  | element hk hc _ _ ih =>
    intro x hx
    rcases List.mem_cons.1 hx with rfl | hx
    · refine ⟨rfl, ?_⟩
      rintro l ⟨⟩
      exact hk
    · rcases List.mem_cons.1 hx with rfl | hx
      · exact hfits hc
      · exact ih x hx

/-- Simple selectors in a row are a compound, and pseudo-elements joined to it. -/
theorem IsRow.split {f g : Flags} {s : Chain} (hs : IsRow f s g) :
    ∃ c t, s = c ++ t ∧ IsCompound c ∧ IsBare c ∧ (t = [] ∨ ∃ k r, t = .combinator k :: r) := by
  induction hs with
  | nil => exact ⟨[], [], rfl, by rintro x ⟨⟩, by rintro x ⟨⟩, .inl rfl⟩
  | @plain _ _ c _ hc _ _ ih =>
    obtain ⟨cs, t, rfl, hcompound, hbare, ht⟩ := ih
    obtain ⟨huniversal, hqualifier, hcombinator⟩ := Component.isBare_of_fits hc
    refine ⟨c :: cs, t, rfl, ?_, ?_, ht⟩
    · rintro x hx
      rcases List.mem_cons.1 hx with rfl | hx
      · exact hcombinator
      · exact hcompound x hx
    · rintro x hx
      rcases List.mem_cons.1 hx with rfl | hx
      · exact ⟨huniversal, hqualifier⟩
      · exact hbare x hx
  | element => exact ⟨[], _, rfl, by rintro x ⟨⟩, by rintro x ⟨⟩, .inr ⟨_, _, rfl⟩⟩

/-- What is written for a head and simple selectors in a row behind it. -/
theorem IsRow.textFrom_append {f g : Flags} {s : Chain} (hs : IsRow f s g) :
    ∃ alone : Bool, (alone = false → s ≠ []) ∧ ∀ leading c, IsCompound c →
      textFrom leading (c ++ s) = headText leading alone c ++ rowText s := by
  -- `alone` is what the printer asks of the head: whether its compound ends with it.
  have hunlinked := hs.isUnlinked
  obtain ⟨d, t, rfl, hd, hbare, ht⟩ := hs.split
  have hcompound {c : Chain} (hc : IsCompound c) : IsCompound (c ++ d) := by
    intro x hx
    exact (List.mem_append.1 hx).elim (hc x) (hd x)
  rcases ht with rfl | ⟨k, r, rfl⟩
  · refine ⟨d.isEmpty, by simp, ?_⟩
    intro leading c hc
    rw [List.append_nil, textFrom_of_isCompound (hcompound hc), headText_append hbare, Bool.true_and]
  · refine ⟨Printed.keepsAlone (some k) && d.isEmpty, by simp, ?_⟩
    intro leading c hc
    by_cases hne : c ++ d = []
    · obtain ⟨rfl, rfl⟩ := List.append_eq_nil_iff.1 hne
      rw [headText_of_not_universal (by rintro x ⟨⟩)]
      exact textFrom_of_isUnlinked hunlinked leading
    · have hr : IsUnlinked (.combinator k :: r) := fun x hx =>
        hunlinked x (List.mem_append_right _ hx)
      rw [← List.append_assoc, textFrom_append_unlinked (hcompound hc) hne hr,
        headText_append hbare, rowText_append, List.append_assoc]

end Chain

/-! ## What is read back -/

/-- What is written for a component is read as simple selectors behind the flags `f` and raises what
the component raises. -/
def Component.IsLegible (f : Flags) (c : Component) : Prop :=
  WrittenSimples f c.text (f.join c.raised)

theorem Component.isLegible_iff {f : Flags} {c : Component} (hraised : c.raised = {}) :
    c.IsLegible f ↔ WrittenSimples f c.text f := by
  rw [IsLegible, hraised, Flags.join_empty]

/-- Names and attributes that fit are read back, and so is the nesting selector. -/
theorem Component.isLegible_of_fits {f : Flags} {c : Component} (hfits : c.fits f = true)
    (h : c.isPseudo = true → c.IsLegible f) : c.IsLegible f := by
  by_cases hpseudo : c.isPseudo = true
  · exact h hpseudo
  match c with
  | .id name =>
    simp only [fits, Bool.and_eq_true, decide_eq_true_eq, Bool.not_eq_true'] at hfits
    exact (isLegible_iff rfl).2 (writtenSimples_id hfits.1 hfits.2)
  | .className name =>
    simp only [fits, Bool.and_eq_true, decide_eq_true_eq, Bool.not_eq_true'] at hfits
    exact (isLegible_iff rfl).2 (writtenSimples_className hfits.1 hfits.2)
  | .attribute a =>
    simp only [fits, Bool.and_eq_true, decide_eq_true_eq, Bool.not_eq_true'] at hfits
    exact (isLegible_iff rfl).2 (writtenSimples_attribute hfits.1.1 hfits.1.2 hfits.2)
  | .nesting => exact (isLegible_iff rfl).2 writtenSimples_nesting

namespace Chain

/-- What is written for the pseudo-classes and pseudo-elements of a chain is read back. -/
abbrev IsLegible (f : Flags) (c : Chain) : Prop := Along (fun f x => x.IsLegible f) f c

/-- Whether a compound is a nesting selector and a star in a namespace, with no type selector
behind. Unless it is written first, its namespace is written without the star. -/
def strands : Chain → Bool
  | .nesting :: .qualifier _ :: .universal :: r => !r.head?.any Component.isType
  | _ => false

/-- Whether a namespace is left without its star behind a combinator. -/
def strandsBehind : Chain → Bool
  | [] => false
  | .combinator _ :: r => strands r || strandsBehind r
  | _ :: r => strandsBehind r

/-! ## Simple selectors and what follows them -/

/-- Whether a text begins with a simple selector. -/
def Starts (w : List Char) : Prop := ∃ c ∈ simpleMarks, w.head? = some c

theorem Starts.append {v : List Char} (hv : Starts v) (w : List Char) : Starts (v ++ w) := by
  obtain ⟨c, hc, hhead⟩ := hv
  exact ⟨c, hc, by rw [List.head?_append, hhead]; rfl⟩

theorem starts_of_writtenSimples {f g : Flags} {w : List Char} (hw : WrittenSimples f w g) :
    Starts w := by
  obtain ⟨ts, hts, -⟩ := hw.spelled
  obtain ⟨c, w, rfl⟩ := List.exists_cons_of_ne_nil hw.ne_nil
  exact ⟨c, hts.begins c rfl, rfl⟩

/-- Simple selectors in a row are read back, if they are legible. -/
theorem IsRow.written {f g : Flags} {s : Chain} (hs : IsRow f s g) (h : s.IsLegible f) :
    (s = [] ∧ f = g) ∨ WrittenSimples f s.rowText g := by
  have happend {f g h : Flags} {v : List Char} {s : Chain} (hv : WrittenSimples f v g)
      (hs : (s = [] ∧ g = h) ∨ WrittenSimples g s.rowText h) :
      WrittenSimples f (v ++ s.rowText) h := by
    rcases hs with ⟨rfl, rfl⟩ | hs
    · rwa [rowText_nil, List.append_nil]
    · exact hv.append hs
  induction hs with
  | nil => exact .inl ⟨rfl, rfl⟩
  | plain hc hraised _ ih =>
    rw [IsLegible, Along, hraised, Flags.join_empty] at h
    have hwritten := (Component.isLegible_iff hraised).1 (Component.isLegible_of_fits hc h.1)
    exact .inr (happend hwritten (ih h.2))
  -- The combinator in front of a pseudo-element is not written and raises nothing.
  | @element f g k c cs hk hc _ _ ih =>
    rw [IsLegible, along_cons_of_not_isPseudo rfl rfl] at h
    rw [rowText_cons, rowText_cons, Component.text_combinator, Combinator.text_of_not_isVisible hk,
      List.nil_append]
    exact .inr (happend (Component.isLegible_of_fits hc h.1) (ih h.2))

theorem IsRow.writtenRow {f g : Flags} {s : Chain} (hs : IsRow f s g) (h : s.IsLegible f) :
    WrittenRow f s.rowText g ∧ (s ≠ [] → Starts s.rowText) := by
  rcases hs.written h with ⟨rfl, rfl⟩ | hwritten
  · exact ⟨.nil, fun hne => absurd rfl hne⟩
  · exact ⟨hwritten.row, fun _ => starts_of_writtenSimples hwritten⟩

/-- Simple selectors, and what follows their compound if it is the text of a selector. -/
inductive WrittenTail (f : Flags) : List Char → Prop
  | simples {w g} : WrittenRow f w g → WrittenTail f w
  | combinator {w v} {k : Combinator} : f.isOpen = true → WrittenRow f w f → k.isVisible = true →
      WrittenSelector f v → WrittenTail f (w ++ (k.text ++ v))

theorem not_starts_combinator {k : Combinator} (hk : k.isVisible = true) (v : List Char) :
    ¬ Starts (k.text ++ v) := by
  have hspace : (k.text ++ v).head? = some ' ' := by
    cases k <;> first | rfl | cases hk
  have hmark : ' ' ∉ simpleMarks := by decide
  rintro ⟨c, hc, hhead⟩
  rw [hspace] at hhead
  cases hhead
  exact hmark hc

/-- What may be written for a type selector behind the flags `f`: nothing, or the type selector where
it may stand. -/
def IsTypeText (f : Flags) (v : List Char) : Prop := v = [] ∨ f.afterAny = false ∧ WrittenType v

/-- The nesting selector or nothing, a type selector or nothing, and simple selectors are a
compound, unless there is nothing at all. -/
theorem spelledAs_head {names : Bool} {G : List Char → Prop} {n : Chain} {v w : List Char}
    {ts : List TokenTree} {f g : Flags} (hn : IsNesting n) (hv : IsTypeText f v)
    (hw : SpelledSimples G f w ts g) (hG : G []) (hends : ∀ r, G r → EndsCompounds (w ++ r))
    (hne : n = [] → v = [] → w ≠ [])
    (hnames : names = true → w ≠ [] ∧ rowText n ++ v ++ w ≠ ['&']) :
    SpelledAs G (ReadsCompound names f · g) (rowText n ++ v ++ w) := by
  rcases hn with rfl | rfl <;> rcases hv with rfl | ⟨hf, hv⟩
  · exact spelledAs_simples hw hG (hne rfl rfl) fun hn => (hnames hn).2
  · exact spelledAs_type_simples hf hv hw hends
  · exact spelledAs_nesting hw fun hn => (hnames hn).1
  · have htext : rowText [.nesting] ++ v ++ w = '&' :: (v ++ w) := rfl
    rw [htext]
    exact spelledAs_nesting_type_simples hf hv hw hends

theorem writtenCompound_head {n : Chain} {v w : List Char} {f g : Flags} (hn : IsNesting n)
    (hv : IsTypeText f v) (hw : WrittenRow f w g) (hne : n = [] → v = [] → w ≠ []) :
    WrittenCompound false f (rowText n ++ v ++ w) g := by
  obtain ⟨ts, hts⟩ := hw
  exact spelledAs_head hn hv (hts.mono fun _ hr => hr.1) endsCompounds_nil
    (fun _ hr => hts.endsCompounds_append fun _ => hr) hne (by rintro ⟨⟩)

namespace WrittenTail

variable {f : Flags} {v w : List Char}

/-- Simple selectors in front of those that follow. -/
theorem row_append (hv : WrittenRow f v f) (hw : WrittenTail f w) : WrittenTail f (v ++ w) := by
  cases hw with
  | simples hrow => exact .simples (hv.append hrow)
  | combinator hf hrow hk hu =>
    rw [← List.append_assoc]
    exact .combinator hf (hv.append hrow) hk hu

/-- Simple selectors and what follows are a selector behind the head of a compound. -/
theorem writtenSelector_head {n : Chain} (hw : WrittenTail f w) (hn : IsNesting n)
    (hv : IsTypeText f v) (hne : n = [] → v = [] → Starts w) :
    WrittenSelector f (rowText n ++ v ++ w) := by
  cases hw with
  | simples hrow =>
    refine (writtenCompound_head hn hv hrow ?_).mono (fun _ hr => hr) fun _ h => h.readsSelector
    rintro rfl rfl rfl
    obtain ⟨c, -, hhead⟩ := hne rfl rfl
    cases hhead
  | @combinator s u k hf hrow hk hu =>
    rw [← List.append_assoc]
    refine SpelledAs.append_combinator hf (writtenCompound_head hn hv hrow ?_) hk hu
    rintro rfl rfl rfl
    exact not_starts_combinator hk u (hne rfl rfl)

end WrittenTail

/-! ## Heads of compounds -/

/-- The head of a compound: the nesting selector or nothing, and a type selector or nothing. The
latter is also what is written if the universal selector is left out. -/
theorem headText_cases {n y : Chain} (hn : IsNesting n) (hy : IsTypeSelector y)
    (leading alone : Bool) (hstrands : leading = false → strands (n ++ y) = false) :
    ∃ v, headText leading alone (n ++ y) = rowText n ++ v ∧
      ((v = [] ∧ (y = [] ∨ n ≠ [] ∨ alone = false)) ∨ y ≠ [] ∧ WrittenType v) := by
  cases hy with
  | none =>
    refine ⟨[], ?_, .inl ⟨rfl, .inl rfl⟩⟩
    rw [List.append_nil, List.append_nil]
    refine headText_of_not_universal (fun x hx => ?_) _ _
    rcases hn with rfl | rfl
    · cases hx
    · obtain rfl := List.mem_singleton.1 hx
      rfl
  | @tag q name hq hname =>
    refine ⟨_, ?_, .inr ⟨by simp, writtenType_of_isIdent hq (isIdent_identText hname)⟩⟩
    have huniversal : ∀ x ∈ n ++ (q.toList.map Component.qualifier ++ [.tag name]),
        x.isUniversal = false := by
      rcases hn with rfl | rfl <;> cases q <;> simp [Component.isUniversal]
    rw [headText_of_not_universal huniversal]
    cases q <;> simp
  | @universal q hq =>
    -- The star is kept where nothing else would be left of the compound, and with a namespace.
    have hstar : q.toList.map Component.qualifier ++ [.universal] ≠ [] ∧
        WrittenType (q.elim [] Namespace.text ++ ['*']) :=
      ⟨by simp, (spelledAs_type_star hq).mono (fun _ hr => hr.2) fun _ h => h⟩
    have hkept (h : headText leading alone (n ++ (q.toList.map Component.qualifier ++ [.universal])) =
        rowText (n ++ (q.toList.map Component.qualifier ++ [.universal]))) :
        headText leading alone (n ++ (q.toList.map Component.qualifier ++ [.universal])) =
          rowText n ++ (q.elim [] Namespace.text ++ ['*']) := by
      rw [h]
      cases q <;> simp
    rcases hn with rfl | rfl
    · cases q with
      | none =>
        cases alone with
        | true => exact ⟨_, hkept (by cases leading <;> rfl), .inr hstar⟩
        | false => exact ⟨[], by cases leading <;> rfl, .inl ⟨rfl, .inr (.inr rfl)⟩⟩
      | some q => exact ⟨_, hkept (by cases leading <;> rfl), .inr hstar⟩
    · cases q with
      | none =>
        by_cases hboth : leading = true ∧ alone = true
        · obtain ⟨rfl, rfl⟩ := hboth
          exact ⟨_, hkept rfl, .inr hstar⟩
        · refine ⟨[], ?_, .inl ⟨rfl, .inr (.inl (by simp))⟩⟩
          cases leading <;> cases alone <;> first | rfl | simp at hboth
      | some q =>
        cases leading with
        | true => exact ⟨_, hkept rfl, .inr hstar⟩
        | false => cases hstrands rfl

theorem isTypeText_of_cases {f : Flags} {y : Chain} {v : List Char} {p : Prop}
    (hmay : y = [] ∨ f.afterAny = false) (h : (v = [] ∧ p) ∨ y ≠ [] ∧ WrittenType v) :
    IsTypeText f v := by
  rcases h with ⟨rfl, -⟩ | ⟨hne, hv⟩
  · exact .inl rfl
  · exact .inr ⟨hmay.resolve_left hne, hv⟩

/-- What is written for components behind the head of a compound. -/
structure WritesTail (f : Flags) (r : Chain) (w : List Char) : Prop where
  written : WrittenTail f w
  textFrom : ∃ alone : Bool, (alone = false → Starts w) ∧ ∀ leading c, IsCompound c →
    c ≠ [] ∨ Starts w → textFrom leading (c ++ r) = headText leading alone c ++ w

theorem isCompound_append {c d : Chain} (hc : IsCompound c) (hd : IsCompound d) :
    IsCompound (c ++ d) := by
  intro x hx
  exact (List.mem_append.1 hx).elim (hc x) (hd x)

theorem IsNesting.isCompound {n : Chain} (hn : IsNesting n) : IsCompound n := by
  rcases hn with rfl | rfl
  · rintro x ⟨⟩
  · intro x hx
    obtain rfl := List.mem_singleton.1 hx
    rfl

theorem IsTypeSelector.isCompound {y : Chain} (hy : IsTypeSelector y) : IsCompound y := by
  have hqualifier (q : Option Namespace) : IsCompound (q.toList.map Component.qualifier) := by
    intro x hx
    obtain ⟨n, -, rfl⟩ := List.mem_map.1 hx
    rfl
  cases hy with
  | none =>
    rintro x ⟨⟩
  | tag | universal =>
    refine isCompound_append (hqualifier _) fun x hx => ?_
    obtain rfl := List.mem_singleton.1 hx
    rfl

section Tails

variable {f g : Flags} {s r : Chain} {w : List Char}

/-- Where no pseudo-element that is known is raised, simple selectors are bare and in one
compound. -/
theorem IsRow.isPlain (hs : IsRow f s g) (hg : g.afterAny = false) :
    IsBare s ∧ IsCompound s := by
  induction hs with
  | nil => exact ⟨by rintro x ⟨⟩, by rintro x ⟨⟩⟩
  | plain hc _ _ ih =>
    obtain ⟨huniversal, hqualifier, hcombinator⟩ := Component.isBare_of_fits hc
    obtain ⟨hbare, hcompound⟩ := ih hg
    refine ⟨?_, ?_⟩ <;> rintro x hx <;> rcases List.mem_cons.1 hx with rfl | hx
    · exact ⟨huniversal, hqualifier⟩
    · exact hbare x hx
    · exact hcombinator
    · exact hcompound x hx
  | element _ _ hraised hs _ =>
    have hafter := hs.afterAny_of_afterAny (by rw [Flags.afterAny_join, hraised, Bool.or_true])
    rw [hg] at hafter
    cases hafter

/-- Simple selectors up to the end of a chain. -/
theorem IsRow.writesTail (hs : IsRow f s g) (h : s.IsLegible f) :
    WritesTail f s s.rowText ∧ (s ≠ [] → Starts s.rowText) := by
  obtain ⟨hrow, hstarts⟩ := hs.writtenRow h
  obtain ⟨alone, halone, htext⟩ := hs.textFrom_append
  exact ⟨⟨.simples hrow, alone, fun ha => hstarts (halone ha), fun leading c hc _ =>
    htext leading c hc⟩, hstarts⟩

/-- Simple selectors, a combinator and a selector. -/
theorem IsRow.writesTail_combinator {k : Combinator} (hf : f.isOpen = true) (hs : IsRow f s f)
    (h : s.IsLegible f) (hk : k.isVisible = true) (hr : WrittenSelector f (textFrom false r)) :
    WritesTail f (s ++ .combinator k :: r) (s.rowText ++ (k.text ++ textFrom false r)) ∧
      (s ≠ [] → Starts (s.rowText ++ (k.text ++ textFrom false r))) := by
  obtain ⟨hrow, hstarts⟩ := hs.writtenRow h
  obtain ⟨hbare, hcompound⟩ := hs.isPlain (Flags.afterAny_of_isOpen hf)
  refine ⟨⟨.combinator hf hrow hk hr, s.isEmpty, ?_, ?_⟩, fun hne => (hstarts hne).append _⟩
  · intro hne
    exact (hstarts (by simpa using hne)).append _
  · intro leading c hc hne
    have hne' : c ++ s ≠ [] := by
      rintro hnil
      obtain ⟨rfl, rfl⟩ := List.append_eq_nil_iff.1 hnil
      rcases hne with hne | hne
      · exact hne rfl
      · exact not_starts_combinator hk _ hne
    rw [← List.append_assoc, Chain.textFrom_append (isCompound_append hc hcompound) hne' hk,
      headText_append hbare, Bool.true_and, List.append_assoc]

/-- A head and what is written behind it. -/
theorem WritesTail.writtenSelector {n y : Chain} (hr : WritesTail f r w) (hn : IsNesting n)
    (hy : IsTypeSelector y) (hmay : y = [] ∨ f.afterAny = false) {leading : Bool}
    (hstrands : leading = false → strands (n ++ y) = false) (hne : n ++ y ≠ [] ∨ Starts w) :
    WrittenSelector f (Chain.textFrom leading (n ++ y ++ r)) := by
  obtain ⟨alone, halone, htext⟩ := hr.textFrom
  obtain ⟨v, hv, hcases⟩ := headText_cases hn hy leading alone hstrands
  rw [htext leading _ (isCompound_append hn.isCompound hy.isCompound) hne, hv]
  refine hr.written.writtenSelector_head hn (isTypeText_of_cases hmay hcases) ?_
  rintro rfl rfl
  rcases hcases with ⟨-, rfl | hcase | hcase⟩ | ⟨-, t, ts, hspells, -⟩
  · exact hne.resolve_left (by simp)
  · exact absurd rfl hcase
  · exact halone hcase
  · have hnil : TokenTree.ofText [] = t :: ts := hspells.ofText_eq endsCompounds_nil
    cases hnil

end Tails

/-! ## Chains that were read -/

theorem strandsBehind_append {c : Chain} (hc : IsCompound c) (r : Chain) :
    strandsBehind (c ++ r) = strandsBehind r := by
  induction c with
  | nil => rfl
  | cons x c ih =>
    have hx := hc x List.mem_cons_self
    rw [List.cons_append, strandsBehind, ih fun y hy => hc y (List.mem_cons_of_mem _ hy)]
    rintro k rfl
    cases hx

/-- What stands behind the head of a compound has no say in what is stranded, unless it is a type
selector. -/
theorem strands_of_append {n y r : Chain} (hn : IsNesting n) (hy : IsTypeSelector y)
    (hr : r.head?.any Component.isType = false) (h : strands (n ++ y ++ r) = false) :
    strands (n ++ y) = false := by
  rcases hn with rfl | rfl
  · cases hy with
    | none => rfl
    | @tag q => cases q <;> rfl
    | @universal q => cases q <;> rfl
  · cases hy with
    | none => rfl
    | @tag q => cases q <;> rfl
    | @universal q =>
      cases q with
      | none => rfl
      | some q =>
        have hstrands : (!r.head?.any Component.isType) = false := h
        rw [hr] at hstrands
        cases hstrands

theorem IsRow.head?_isType {f g : Flags} {s : Chain} (hs : IsRow f s g) {r : Chain}
    (hr : r.head?.any Component.isType = false) : (s ++ r).head?.any Component.isType = false := by
  cases hs with
  | nil => exact hr
  | @plain _ _ c _ hc =>
    cases c <;> first | rfl | cases hc
  | element => rfl

/-- A chain that was read is read from what is written for it, if its pseudo-classes and
pseudo-elements are and no namespace is stranded. -/
theorem IsRead.writtenSelector {f : Flags} {c : Chain} (h : IsRead f c) (hlegible : c.IsLegible f)
    {leading : Bool} (hstrands : leading = false → strands c = false)
    (hbehind : strandsBehind c = false) : WrittenSelector f (textFrom leading c) := by
  -- A compound without a head has simple selectors, and these begin with a mark.
  have hsplit {n y s : Chain} {w : List Char} (hne : n ++ y ++ s ≠ []) (hs : s ≠ [] → Starts w) :
      n ++ y ≠ [] ∨ Starts w := by
    by_cases hnil : s = []
    · subst hnil
      exact .inl (by simpa using hne)
    · exact .inr (hs hnil)
  induction h generalizing leading with
  | compound hc =>
    obtain @⟨n, y, s, g, hn, hy, hmay, hs, hne⟩ := hc
    rw [IsLegible, along_head hn hy] at hlegible
    obtain ⟨htail, hstarts⟩ := hs.writesTail hlegible
    have htype := hs.head?_isType (r := []) rfl
    rw [List.append_nil] at htype
    exact htail.writtenSelector hn hy hmay (fun hl => strands_of_append hn hy htype (hstrands hl))
      (hsplit hne hstarts)
  | @combinator c k r hf hc hk _ ih =>
    obtain @⟨n, y, s, g, hn, hy, hmay, hs, hne⟩ := hc
    rw [IsLegible, List.append_assoc, along_head hn hy, hs.along_append,
      along_cons_of_not_isPseudo rfl rfl] at hlegible
    have hcompound := isCompound_append (isCompound_append hn.isCompound hy.isCompound)
      (hs.isPlain (Flags.afterAny_of_isOpen hf)).2
    rw [strandsBehind_append hcompound, strandsBehind, Bool.or_eq_false_iff] at hbehind
    obtain ⟨htail, hstarts⟩ := hs.writesTail_combinator hf hlegible.1 hk
      (ih hlegible.2 (fun _ => hbehind.1) hbehind.2)
    rw [List.append_assoc] at hstrands ⊢
    exact htail.writtenSelector hn hy hmay
      (fun hl => strands_of_append hn hy (hs.head?_isType (r := .combinator k :: r) rfl) (hstrands hl))
      (hsplit hne hstarts)

end Chain

end MailCss
