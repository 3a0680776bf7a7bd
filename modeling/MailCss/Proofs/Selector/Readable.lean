import Mathlib.Data.List.Forall2
import MailCss.Proofs.Selector.Legible

/-!
# Texts of selectors and of selector lists

A text of one compound, or of compounds with combinators between them, is read back as such, and
a text of several selectors between commas as a list of as many. Where one of the selectors breaks
off because a name stands right behind a compound, the list is refused.
-/

namespace MailCss

open Css

/-- What a compound begins with. -/
def beginsCompound : Token → Bool
  | .ident _ | .delim '*' | .delim '|' => true
  | t => beginsSimple t

/-- What ends names and stars: nothing more, or a character that goes on with neither. -/
def EndsCompounds (r : List Char) : Prop := EndsIdents r ∧ BeginsWithout '=' r

/-- A text that is spelled in front of texts of which `F` holds, by trees that begin like a
compound, have no comma among them and whose items are as `p` says. -/
def SpelledAs (F : List Char → Prop) (p : List Item → Prop) (w : List Char) : Prop :=
  ∃ t ts, Spells F w (t :: ts) ∧ beginsCompound t.token = true ∧
    (∀ u ∈ t :: ts, u.token ≠ .comma) ∧ p (Item.ofTrees (t :: ts))

/-- A text that is read as a compound, from the flags `f` to the flags `g`. -/
abbrev WrittenCompound (names : Bool) (f : Flags) (w : List Char) (g : Flags) : Prop :=
  SpelledAs EndsCompounds (ReadsCompound names f · g) w

/-- A text that is read as a selector. -/
abbrev WrittenSelector (f : Flags) (w : List Char) : Prop :=
  SpelledAs EndsCompounds (ReadsSelector f) w

/-- A text that is not read as a selector. -/
abbrev BrokenSelector (f : Flags) (w : List Char) : Prop :=
  SpelledAs EndsCompounds (BreaksSelector f) w

theorem endsCompounds_nil : EndsCompounds [] := ⟨endsIdents_nil, by simp [BeginsWithout]⟩

theorem endsCompounds_cons {c : Char} (hname : inName c = false)
    (hmark : c ∉ ['\\', '\n', '\r', '\x0c', '(', '>', '=']) (r : List Char) :
    EndsCompounds (c :: r) := by
  refine ⟨endsIdents_cons hname (fun hmem => hmark ?_) r, ?_⟩
  · simp only [List.mem_cons, List.not_mem_nil, or_false] at hmem ⊢
    tauto
  · simp only [List.mem_cons, List.not_mem_nil, not_or] at hmark
    simp [BeginsWithout, hmark]

theorem isSkipped_of_beginsCompound {t : Token} (h : beginsCompound t = true) :
    t.isSkipped = false := by
  cases t <;> first | rfl | cases h

theorem combinator?_of_beginsCompound {t : Token} (h : beginsCompound t = true) :
    combinator? t = none := by
  unfold combinator?
  split <;> first | rfl | cases h

theorem SpelledAs.mono {F G : List Char → Prop} {p q : List Item → Prop} {w : List Char}
    (h : SpelledAs F p w) (hF : ∀ r, G r → F r) (hp : ∀ items, p items → q items) :
    SpelledAs G q w := by
  obtain ⟨t, ts, hspells, hbegins, hcomma, hread⟩ := h
  exact ⟨t, ts, hspells.mono hF, hbegins, hcomma, hp _ hread⟩

/-! ## Type selectors -/

/-- A text that is read as a type selector. -/
abbrev WrittenType (w : List Char) : Prop := SpelledAs EndsCompounds ReadsType w

theorem readsType_unqualified {t : TokenTree} {c : Component} {n : Namespace}
    (hskipped : t.token.isSkipped = false) (hampersand : t.token ≠ .delim '&')
    (h : ∀ rest, readTypeName (Item.ofTree t :: rest) = readTypeOrNamespace n c rest) :
    ReadsType (Item.ofTrees [t]) := by
  refine ⟨by simp [Item.ofTrees], ?_, [c], by simp, ?_⟩
  · rintro u ⟨⟩
    rw [Item.isSkipped, Item.token_ofTree]
    exact ⟨hampersand, hskipped⟩
  · intro rest hrest
    refine (h rest).trans ?_
    rw [readTypeOrNamespace]
    split
    · rename_i u r hu
      rw [hu] at hrest
      rw [if_neg (by simpa using hrest u rfl)]
    · rfl

theorem readsType_qualified {ts : List TokenTree} {cs : List Component} (hne : cs ≠ [])
    (hhead : ∀ t ∈ ts.head?, t.token ≠ .delim '&' ∧ t.token.isSkipped = false) (hts : ts ≠ [])
    (h : ∀ rest, readTypeName (Item.ofTrees ts ++ rest) = .ok (cs, rest)) :
    ReadsType (Item.ofTrees ts) := by
  refine ⟨by simpa [Item.ofTrees_eq_map] using hts, ?_, cs, hne, fun rest _ => h rest⟩
  intro u hu
  rw [Item.ofTrees_eq_map, List.head?_map] at hu
  obtain ⟨t, ht, rfl⟩ := Option.map_eq_some_iff.1 hu
  rw [Item.isSkipped, Item.token_ofTree]
  exact hhead t ht

/-- A name or a star, with its namespace if it has one, is read as a type selector. -/
theorem spelledAs_type {F : List Char → Prop} {q : Option Namespace}
    (hq : q.all Namespace.isNamed = true) {w : List Char} {t : TokenTree} (hw : Spells F w [t])
    (hbegins : ∀ r, BeginsWithout '=' (w ++ r))
    (ht : (∃ v, t = identLeaf v) ∨ t = .leaf ⟨.delim '*', ['*']⟩) :
    SpelledAs F ReadsType (q.elim [] Namespace.text ++ w) := by
  have hcomma : t.token ≠ .comma := by
    rcases ht with ⟨v, rfl⟩ | rfl <;> simp
  have hhead {x : Lexeme} (hx : x.token ≠ .delim '&') (hskipped : x.token.isSkipped = false)
      (us : List TokenTree) : ∀ u ∈ (TokenTree.leaf x :: us).head?,
        u.token ≠ .delim '&' ∧ u.token.isSkipped = false := by
    rintro u ⟨⟩
    exact ⟨hx, hskipped⟩
  -- No namespace, any, none and one with a label: the trees differ in front of `t` only.
  rcases q with _ | (_ | _ | label)
  · refine ⟨t, [], hw, ?_, by simpa using hcomma, ?_⟩
    · rcases ht with ⟨v, rfl⟩ | rfl <;> rfl
    · rcases ht with ⟨v, rfl⟩ | rfl
      · exact readsType_unqualified rfl (by simp) fun rest => rfl
      · exact readsType_unqualified rfl (by simp) fun rest => rfl
  · refine ⟨_, [.leaf ⟨.delim '|', ['|']⟩, t],
      (spells_star.append spells_bar fun r _ => by simp [BeginsWithout]).append hw fun r _ =>
        hbegins r, rfl, by simp [hcomma], ?_⟩
    rcases ht with ⟨v, rfl⟩ | rfl <;>
      exact readsType_qualified (List.cons_ne_nil _ _) (hhead (by simp) rfl _)
        (List.cons_ne_nil _ _) fun rest => rfl
  · refine ⟨_, [t], spells_bar.append hw fun r _ => hbegins r, rfl, by simp [hcomma], ?_⟩
    rcases ht with ⟨v, rfl⟩ | rfl <;>
      exact readsType_qualified (List.cons_ne_nil _ _) (hhead (by simp) rfl _)
        (List.cons_ne_nil _ _) fun rest => rfl
  · have hlabel : IsIdent (identText label) :=
      isIdent_identText (by simpa [Namespace.isNamed] using hq)
    refine ⟨_, [.leaf ⟨.delim '|', ['|']⟩, t],
      ((spells_ident hlabel).append spells_bar fun r _ =>
        endsIdents_cons (by decide) (by decide) r).append hw fun r _ => hbegins r, rfl,
      by simp [hcomma], ?_⟩
    rcases ht with ⟨v, rfl⟩ | rfl <;>
      exact readsType_qualified (List.cons_ne_nil _ _) (hhead (by simp) rfl _)
        (List.cons_ne_nil _ _) fun rest => rfl

theorem writtenType_of_isIdent {q : Option Namespace} (hq : q.all Namespace.isNamed = true)
    {w : List Char} (hw : IsIdent w) : WrittenType (q.elim [] Namespace.text ++ w) :=
  spelledAs_type hq ((spells_ident hw).mono fun _ hr => hr.1) (beginsWithout_equals_append hw)
    (.inl ⟨w, rfl⟩)

/-- A star is a type selector also in front of a name. -/
theorem spelledAs_type_star {q : Option Namespace} (hq : q.all Namespace.isNamed = true) :
    SpelledAs (BeginsWithout '=') ReadsType (q.elim [] Namespace.text ++ ['*']) :=
  spelledAs_type hq spells_star (fun r => by simp [BeginsWithout]) (.inr rfl)

/-! ## Compounds -/

/-- A text of simple selectors, of which there may be none. -/
def WrittenRow (f : Flags) (w : List Char) (g : Flags) : Prop :=
  ∃ ts, SpelledSimples EndsIdents f w ts g

section Compounds

variable {names : Bool} {f g h : Flags} {v w : List Char}

theorem WrittenRow.nil : WrittenRow f [] f := ⟨[], .nil⟩

theorem WrittenRow.append (hv : WrittenRow f v g) (hw : WrittenRow g w h) :
    WrittenRow f (v ++ w) h := by
  obtain ⟨ts, hts⟩ := hv
  obtain ⟨us, hus⟩ := hw
  exact ⟨ts ++ us, hts.append hus fun _ hr _ => hr⟩

theorem WrittenSimples.row (hw : WrittenSimples f w g) : WrittenRow f w g := by
  obtain ⟨ts, hts, -⟩ := hw.spelled
  exact ⟨ts, hts⟩

variable {F G : List Char → Prop} {ts : List TokenTree}

theorem SpelledSimples.endsCompounds_append (hw : SpelledSimples F f w ts g) {r : List Char}
    (hr : w = [] → EndsCompounds r) : EndsCompounds (w ++ r) := by
  rcases w with _ | ⟨c, w⟩
  · exact hr rfl
  · have hall : simpleMarks.all (fun c => inName c = false ∧
        c ∉ ['\\', '\n', '\r', '\x0c', '(', '>', '=']) = true := by decide
    obtain ⟨hname, hmark⟩ := of_decide_eq_true (List.all_eq_true.1 hall c (hw.begins c rfl))
    exact endsCompounds_cons hname hmark _

theorem beginsCompound_of_beginsSimple {t : Token} (h : beginsSimple t = true) :
    beginsCompound t = true := by
  unfold beginsCompound
  split <;> first | rfl | exact h

theorem SpelledSimples.beginsCompound_head {t : TokenTree}
    (hw : SpelledSimples F f w (t :: ts) g) : beginsCompound t.token = true := by
  have hbegins := hw.reads.beginsSimple_head (Item.ofTree t) rfl
  rw [Item.token_ofTree] at hbegins
  exact beginsCompound_of_beginsSimple hbegins

/-- Simple selectors alone are a compound; where a name may be behind it, it must be more than the
nesting selector. -/
theorem spelledAs_simples (hw : SpelledSimples G f w ts g) (hG : G []) (hne : w ≠ [])
    (hnames : names = true → w ≠ ['&']) : SpelledAs G (ReadsCompound names f · g) w := by
  obtain ⟨t, ts, rfl⟩ := List.exists_cons_of_ne_nil (hw.ne_nil hne)
  refine ⟨t, ts, hw.spells, hw.beginsCompound_head, hw.noComma,
    readsCompound_simples hw.reads (by simp [Item.ofTrees]) ?_⟩
  intro hn u hu hampersand
  cases ts with
  | nil =>
    cases hu
    rw [Item.token_ofTree] at hampersand
    exact hnames hn (hw.spells.eq_of_delim hG hampersand)
  | cons _ _ => cases hu

/-- The nesting selector in front of simple selectors. -/
theorem spelledAs_nesting (hw : SpelledSimples G f w ts g) (hnames : names = true → w ≠ []) :
    SpelledAs G (ReadsCompound names f · g) ('&' :: w) := by
  refine ⟨.leaf ⟨.delim '&', ['&']⟩, ts, spells_ampersand.append hw.spells fun _ _ => trivial,
    rfl, by simpa using hw.noComma, ?_⟩
  exact readsCompound_nesting rfl hw.reads fun hn => by
    simpa [Item.ofTrees_eq_map] using hw.ne_nil (hnames hn)

/-- A type selector in front of simple selectors. -/
theorem spelledAs_type_simples (hf : f.afterAny = false) (hv : SpelledAs F ReadsType v)
    (hw : SpelledSimples G f w ts g) (hF : ∀ r, G r → F (w ++ r)) :
    SpelledAs G (ReadsCompound names f · g) (v ++ w) := by
  obtain ⟨t, us, hspells, hbegins, hcomma, htype⟩ := hv
  refine ⟨t, us ++ ts, hspells.append hw.spells hF, hbegins, ?_, ?_⟩
  · intro u hu
    rw [← List.cons_append, List.mem_append] at hu
    exact hu.elim (hcomma u) (hw.noComma u)
  · rw [← List.cons_append, Item.ofTrees_append]
    exact readsCompound_type hf htype hw.reads

/-- The nesting selector and a type selector in front of simple selectors. -/
theorem spelledAs_nesting_type_simples (hf : f.afterAny = false) (hv : SpelledAs F ReadsType v)
    (hw : SpelledSimples G f w ts g) (hF : ∀ r, G r → F (w ++ r)) :
    SpelledAs G (ReadsCompound names f · g) ('&' :: (v ++ w)) := by
  obtain ⟨t, us, hspells, hbegins, hcomma, htype⟩ := hv
  refine ⟨.leaf ⟨.delim '&', ['&']⟩, t :: (us ++ ts),
    spells_ampersand.append (hspells.append hw.spells hF) fun _ _ => trivial, rfl, ?_, ?_⟩
  · intro u hu
    rcases List.mem_cons.1 hu with rfl | hu
    · simp
    · rw [← List.cons_append, List.mem_append] at hu
      exact hu.elim (hcomma u) (hw.noComma u)
  · rw [Item.ofTrees, ← List.cons_append, Item.ofTrees_append]
    exact readsCompound_nesting_type hf rfl htype hw.reads

end Compounds

/-! ## Combinators -/

/-- Whether a combinator is written. -/
def Combinator.isVisible : Combinator → Bool
  | .toPseudoElement | .toSlotted | .toPart => false
  | _ => true

theorem Combinator.text_of_not_isVisible {k : Combinator} (hk : k.isVisible = false) :
    k.text = [] := by
  cases k <;> first | rfl | cases hk

/-- What is written for a combinator is read in front of a compound. -/
theorem spells_combinator {k : Combinator} (hk : k.isVisible = true) :
    ∃ s v ks, Spells BeginsNoSpace k.text (.leaf ⟨.whitespace s, v⟩ :: ks) ∧
      (∀ t ∈ ks, t.token ≠ .comma) ∧ (∀ r, EndsCompounds (k.text ++ r)) ∧
      ∀ u items, u.isSkipped = false → combinator? u.token = none →
        ∃ back, (∀ t ∈ back, t.isSkipped = true) ∧ back.length ≤ ks.length ∧
          readCombinator (Item.ofTrees (.leaf ⟨.whitespace s, v⟩ :: ks) ++ u :: items) =
            (some k, back ++ u :: items) := by
  have hends (r : List Char) : EndsCompounds (' ' :: r) :=
    endsCompounds_cons (by decide) (by decide) r
  -- A mark is written between two spaces, of which the reader leaves the second.
  have hmarked {c : Char} {F : List Char → Prop} (hc : Spells F [c] [.leaf ⟨.delim c, [c]⟩])
      (hF : ∀ r, F (' ' :: r)) (hspace : isSpace c = false) :
      Spells BeginsNoSpace [' ', c, ' ']
        [.leaf ⟨.whitespace " ", [' ']⟩, .leaf ⟨.delim c, [c]⟩, .leaf ⟨.whitespace " ", [' ']⟩] :=
    spells_space.append (hc.append spells_space fun r _ => hF r) fun r _ => by
      rintro d ⟨⟩
      exact hspace
  have hread {c : Char} (hc : combinator? (.delim c) = some k) (u : Item) (items : List Item) :
      ∃ back, (∀ t ∈ back, t.isSkipped = true) ∧ back.length ≤ 2 ∧
        readCombinator (Item.ofTrees [.leaf ⟨.whitespace " ", [' ']⟩, .leaf ⟨.delim c, [c]⟩,
          .leaf ⟨.whitespace " ", [' ']⟩] ++ u :: items) = (some k, back ++ u :: items) := by
    refine ⟨[Item.ofTree (.leaf ⟨.whitespace " ", [' ']⟩)], ?_, by simp, ?_⟩
    · simp [Item.isSkipped, Token.isSkipped]
    · exact readCombinator_eq rfl hc
  cases k with
  | descendant =>
    refine ⟨_, _, [], spells_space, by simp, hends, ?_⟩
    intro u items hu hnone
    exact ⟨[], by simp, by simp, readCombinator_descendant rfl hu hnone⟩
  | child =>
    exact ⟨_, _, _, hmarked spells_greater (fun _ => trivial) rfl,
      by simp, hends, fun u items _ _ => hread rfl u items⟩
  | nextSibling =>
    refine ⟨_, _, _, hmarked spells_plus (fun r => ?_) rfl,
      by simp, hends, fun u items _ _ => hread rfl u items⟩
    rintro c ⟨⟩
    decide
  | laterSibling =>
    refine ⟨_, _, _, hmarked spells_tilde (fun r => ?_) rfl,
      by simp, hends, fun u items _ _ => hread rfl u items⟩
    simp [BeginsWithout]
  | _ => cases hk

theorem CompoundsRead.skipAll {f : Flags} {q : Except Failure (Chain × List Item) → Prop}
    {back items : List Item} (hback : ∀ t ∈ back, t.isSkipped = true)
    (h : CompoundsRead f q items) : CompoundsRead f q (back ++ items) := by
  induction back with
  | nil => exact h
  | cons t back ih =>
    exact (ih fun u hu => hback u (List.mem_cons_of_mem _ hu)).skip (hback t List.mem_cons_self)

/-- A compound and a combinator in front of the text of a selector. -/
theorem SpelledAs.append_combinator {f : Flags} {q : Except Failure (Chain × List Item) → Prop}
    {v w : List Char} {k : Combinator} (hf : f.isOpen = true) (hv : WrittenCompound false f v f)
    (hk : k.isVisible = true) (hw : SpelledAs EndsCompounds (CompoundsRead f q) w) :
    SpelledAs EndsCompounds (CompoundsRead f q) (v ++ (k.text ++ w)) := by
  obtain ⟨t, ts, hts, hbegins, hcomma, hcompound⟩ := hv
  obtain ⟨u, us, hus, hbegins', hcomma', hread⟩ := hw
  obtain ⟨s, v', ks, hks, hcommaks, hends, hcombinator⟩ := spells_combinator hk
  have hskipped := isSkipped_of_beginsCompound hbegins'
  refine ⟨t, ts ++ (.leaf ⟨.whitespace s, v'⟩ :: ks ++ u :: us), ?_, hbegins, ?_, ?_⟩
  · have hfront := hks.append hus fun r _ => hus.beginsNoSpace endsCompounds_nil hskipped r
    exact hts.append hfront fun r _ => by
      rw [List.append_assoc]
      exact hends _
  · intro x hx
    simp only [List.mem_cons, List.mem_append] at hx hcomma hcomma'
    rcases hx with hx | hx | (rfl | hx) | hx
    · exact hcomma x (.inl hx)
    · exact hcomma x (.inr hx)
    · simp
    · exact hcommaks x hx
    · exact hcomma' x hx
  · obtain ⟨back, hback, hlen, hcomb⟩ := hcombinator (Item.ofTree u) (Item.ofTrees us)
      (by rw [Item.isSkipped, Item.token_ofTree, hskipped])
      (by rw [Item.token_ofTree, combinator?_of_beginsCompound hbegins'])
    have hitems : Item.ofTrees (t :: (ts ++ (.leaf ⟨.whitespace s, v'⟩ :: ks ++ u :: us))) =
        Item.ofTrees (t :: ts) ++ Item.ofTree (.leaf ⟨.whitespace s, v'⟩) ::
          (Item.ofTrees ks ++ Item.ofTree u :: Item.ofTrees us) := by
      simp [Item.ofTrees]
    rw [hitems]
    refine hcompound.readsAs_append hf rfl hcomb ?_ (hread.skipAll hback)
    simp only [List.length_append, List.length_cons, Item.ofTrees_eq_map, List.length_map]
    omega

/-! ## Lists -/

theorem joinTexts_cons_cons (sep w v : List Char) (ws : List (List Char)) :
    joinTexts sep (w :: v :: ws) = w ++ sep ++ joinTexts sep (v :: ws) := rfl

theorem exists_joinTexts_cons (sep w : List Char) (ws : List (List Char)) :
    ∃ r, joinTexts sep (w :: ws) = w ++ r := by
  cases ws with
  | nil => exact ⟨[], by simp [joinTexts]⟩
  | cons v ws => exact ⟨sep ++ joinTexts sep (v :: ws), by simp [joinTexts]⟩

section Lists

variable {p : List Char → List Item → Prop} {front items : List Item}

/-- Items without commas are one part. -/
theorem segments_eq_singleton (h : ∀ t ∈ items, t.token ≠ .comma) : segments items = [items] :=
  Sequence.splitWhere_eq_singleton fun t ht => by simpa using h t ht

theorem segments_append {t : Item} (ht : t.token = .comma) (items' : List Item) :
    segments (items ++ t :: items') = segments items ++ segments items' :=
  Sequence.splitWhere_append (by simp [ht]) _ _

/-- The trees of a text in front of a comma and a space. -/
theorem ofText_append_comma {w r : List Char} {ts : List TokenTree}
    (hw : Spells EndsCompounds w ts) (hr : BeginsNoSpace r) :
    TokenTree.ofText (w ++ ", ".toList ++ r) =
      ts ++ .leaf ⟨.comma, [',']⟩ :: .leaf ⟨.whitespace " ", [' ']⟩ :: TokenTree.ofText r := by
  have hsep : w ++ ", ".toList ++ r = w ++ ',' :: ' ' :: r := by simp
  rw [hsep, hw.ofText_append (endsCompounds_cons (by decide) (by decide) _)]
  have hcomma := spells_comma.ofText_append (r := ' ' :: r) trivial
  have hspace := spells_space.ofText_append hr
  simp only [List.cons_append, List.nil_append] at hcomma hspace
  rw [hcomma, hspace]

/-- The items of a text, also behind white space. -/
theorem SpelledAs.exists_part {q : List Item → Prop} {w : List Char}
    (h : SpelledAs EndsCompounds q w)
    (hskip : ∀ t items, t.isSkipped = true → q items → q (t :: items))
    (hfront : ∀ t ∈ front, t.isSkipped = true) :
    ∃ ts, Spells EndsCompounds w ts ∧ segments (front ++ Item.ofTrees ts) = [front ++ Item.ofTrees ts] ∧
      q (front ++ Item.ofTrees ts) := by
  obtain ⟨t, ts, hspells, -, hnone, hread⟩ := h
  refine ⟨t :: ts, hspells, segments_eq_singleton ?_, ?_⟩
  · intro u hu
    rcases List.mem_append.1 hu with hu | hu
    · intro hcomma
      have hskipped := hfront u hu
      simp [Item.isSkipped, hcomma, Token.isSkipped] at hskipped
    · rw [Item.ofTrees_eq_map] at hu
      obtain ⟨x, hx, rfl⟩ := List.mem_map.1 hu
      rw [Item.token_ofTree]
      exact hnone x hx
  · induction front with
    | nil => exact hread
    | cons u front ih =>
      exact hskip u _ (hfront u List.mem_cons_self)
        (ih fun x hx => hfront x (List.mem_cons_of_mem _ hx))

/-- Texts between commas fall into as many parts, each of them as it is read alone or with white
space in front. -/
theorem segments_joinTexts (front : List Item)
    (hskip : ∀ w t items, t.isSkipped = true → p w items → p w (t :: items))
    (w : List Char) (ws : List (List Char)) (h : ∀ v ∈ w :: ws, SpelledAs EndsCompounds (p v) v)
    (hfront : ∀ t ∈ front, t.isSkipped = true) :
    List.Forall₂ p (w :: ws) (segments (front ++
      Item.ofTrees (TokenTree.ofText (joinTexts ", ".toList (w :: ws))))) := by
  induction ws generalizing w front with
  | nil =>
    obtain ⟨ts, hspells, hpart, hread⟩ := (h w List.mem_cons_self).exists_part (hskip w) hfront
    have htext : joinTexts ", ".toList [w] = w := rfl
    rw [htext, hspells.ofText_eq endsCompounds_nil, hpart]
    exact .cons hread .nil
  | cons v ws ih =>
    obtain ⟨ts, hspells, hpart, hread⟩ := (h w List.mem_cons_self).exists_part (hskip w) hfront
    have hrest : BeginsNoSpace (joinTexts ", ".toList (v :: ws)) := by
      obtain ⟨t, us, hv, hbegins, -⟩ := h v (by simp)
      obtain ⟨r, hr⟩ := exists_joinTexts_cons ", ".toList v ws
      rw [hr]
      exact hv.beginsNoSpace endsCompounds_nil (isSkipped_of_beginsCompound hbegins) r
    -- Every part but the first has the space behind its comma in front of it.
    have hback := ih [Item.ofTree (.leaf ⟨.whitespace " ", [' ']⟩)] v
      (fun x hx => h x (List.mem_cons_of_mem _ hx)) (by simp [Item.isSkipped, Token.isSkipped])
    have hitems : front ++ Item.ofTrees (ts ++ .leaf ⟨.comma, [',']⟩ ::
          .leaf ⟨.whitespace " ", [' ']⟩ :: TokenTree.ofText (joinTexts ", ".toList (v :: ws))) =
        (front ++ Item.ofTrees ts) ++ Item.ofTree (.leaf ⟨.comma, [',']⟩) ::
          ([Item.ofTree (.leaf ⟨.whitespace " ", [' ']⟩)] ++
            Item.ofTrees (TokenTree.ofText (joinTexts ", ".toList (v :: ws)))) := by
      simp [Item.ofTrees]
    rw [joinTexts_cons_cons, ofText_append_comma hspells hrest, hitems, segments_append rfl, hpart]
    exact .cons hread hback

/-- Parts that are all read are read as a list of as many. -/
theorem readSegments_of_forall {α β : Type} (read : List Item → Except Failure α) {ws : List β}
    {segs : List (List Item)} (h : List.Forall₂ (fun _ s => ∃ a, read s = .ok a) ws segs) :
    ∃ as, readSegments read segs = .ok as ∧ as.length = ws.length := by
  induction h with
  | nil => exact ⟨[], rfl, rfl⟩
  | cons hs _ ih =>
    obtain ⟨a, ha⟩ := hs
    obtain ⟨as, has, hlen⟩ := ih
    refine ⟨a :: as, ?_, by simp [hlen]⟩
    rw [readSegments, ha]
    simp only [has]
    rfl

/-- A part that is not read breaks a list. -/
theorem read_of_readSegments {α : Type} {read : List Item → Except Failure α}
    {segs : List (List Item)} {as : List α} (h : readSegments read segs = .ok as) :
    ∀ s ∈ segs, ∃ a, read s = .ok a := by
  induction segs generalizing as with
  | nil =>
    rintro s ⟨⟩
  | cons t segs ih =>
    rw [readSegments] at h
    cases ht : read t with
    | error e =>
      rw [ht] at h
      cases h
    | ok a =>
      rw [ht] at h
      cases hsegs : readSegments read segs with
      | error e =>
        simp only [hsegs] at h
        cases h
      | ok bs =>
        intro s hs
        rcases List.mem_cons.1 hs with rfl | hs
        · exact ⟨a, ht⟩
        · exact ih hsegs s hs

end Lists

/-- Texts of selectors between commas are read as as many selectors. -/
theorem readSegments_joinTexts {f : Flags} (w : List Char) (ws : List (List Char))
    (h : ∀ v ∈ w :: ws, WrittenSelector f v) :
    ∃ ss, readSegments (readMatchOrder f) (segments
        (Item.ofTrees (TokenTree.ofText (joinTexts ", ".toList (w :: ws))))) = .ok ss ∧
      ss.length = (w :: ws).length := by
  have hparts := segments_joinTexts (p := fun _ => ReadsSelector f) []
    (fun _ _ _ ht hitems => hitems.skip ht) w ws h (by simp)
  exact readSegments_of_forall (readMatchOrder f) <| hparts.imp fun _ items hitems => by
    obtain ⟨chain, hchain⟩ := ReadsSelector.readSelector hitems
    exact ⟨chain.toMatchOrder, by rw [readMatchOrder, hchain]; rfl⟩

/-- Texts of selectors between commas are read as a list of as many. -/
theorem read_joinTexts (w : List Char) (ws : List (List Char))
    (h : ∀ v ∈ w :: ws, WrittenSelector {} v) :
    ∃ l, SelectorList.read (joinTexts ", ".toList (w :: ws)) = .ok l ∧
      l.selectors.length = (w :: ws).length := by
  obtain ⟨ss, hss, hlen⟩ := readSegments_joinTexts w ws h
  refine ⟨⟨ss.map Selector.mk⟩, ?_, by simpa using hlen⟩
  rw [SelectorList.read, readSelectorList, hss]
  rfl

theorem exists_mem_of_forall₂ {α β : Type} {r : α → β → Prop} {as : List α} {bs : List β}
    (h : List.Forall₂ r as bs) {a : α} (ha : a ∈ as) : ∃ b ∈ bs, r a b := by
  induction h with
  | nil => cases ha
  | cons hab _ ih =>
    rcases List.mem_cons.1 ha with rfl | ha
    · exact ⟨_, List.mem_cons_self, hab⟩
    · obtain ⟨b, hb, hr⟩ := ih ha
      exact ⟨b, List.mem_cons_of_mem _ hb, hr⟩

/-- If one of the texts breaks off, the list is refused. -/
theorem read_joinTexts_of_breaks (w : List Char) (ws : List (List Char))
    (h : ∀ v ∈ w :: ws, WrittenSelector {} v ∨ BrokenSelector {} v)
    (hbreaks : ∃ v ∈ w :: ws, BrokenSelector {} v) (l : SelectorList) :
    SelectorList.read (joinTexts ", ".toList (w :: ws)) ≠ .ok l := by
  intro hread
  obtain ⟨v, hv, hbreak⟩ := hbreaks
  have hparts := segments_joinTexts (p := fun v items => BrokenSelector {} v →
    BreaksSelector {} items) [] (fun _ _ _ ht hitems hb => (hitems hb).skip ht) w ws
    (fun v hv => by
      by_cases hb : BrokenSelector {} v
      · exact hb.mono (fun _ hr => hr) fun _ hitems _ => hitems
      · exact ((h v hv).resolve_right hb).mono (fun _ hr => hr) fun _ _ hb' => absurd hb' hb) (by simp)
  -- The parts are those between the commas written, whether they are broken or not.
  obtain ⟨items, hitems, hbreak'⟩ := exists_mem_of_forall₂ hparts hv
  rw [SelectorList.read, readSelectorList] at hread
  cases hss : readSegments (readMatchOrder {})
      (segments (Item.ofTrees (TokenTree.ofText (joinTexts ", ".toList (w :: ws))))) with
  | error e =>
    rw [hss] at hread
    cases hread
  | ok ss =>
    obtain ⟨cs, hcs⟩ := read_of_readSegments hss items hitems
    rw [readMatchOrder] at hcs
    cases hchain : readSelector {} items with
    | error e =>
      rw [hchain] at hcs
      cases hcs
    | ok chain => exact BreaksSelector.readSelector (hbreak' hbreak) chain hchain

end MailCss
