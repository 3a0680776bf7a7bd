import MailCss.Proofs.Selector.Adapted
import MailCss.Proofs.Selector.Parsed

/-!
# Selectors between commas are adapted on their own

A text that ends outside its lexemes and leaves no bracket open is cut off by a comma behind it. So
the selectors in front of the comma and those behind it are read, adapted and written as if they
were alone, and the whole fails if either does.

Main statement: `Adapt.adapt_append_comma`.
-/

namespace MailCss

open Css

/-! ## Token trees -/

/-- No bracket is open at the end of a text. There may be closing brackets that close nothing. -/
def ClosesBrackets (s : List Char) : Prop := ((lexemes s).foldl Builder.feed {}).frames = []

instance (s : List Char) : Decidable (ClosesBrackets s) :=
  decidable_of_iff (((lexemes s).foldl Builder.feed {}).frames.isEmpty = true) List.isEmpty_iff

/-- A text with nothing left open is cut off from what bars it. -/
theorem ofText_append_of_closesBrackets {s r : List Char} (hends : EndsOutside s)
    (hclosed : ClosesBrackets s) (hr : Bars r) :
    TokenTree.ofText (s ++ r) = TokenTree.ofText s ++ TokenTree.ofText r := by
  obtain ⟨done, hdone⟩ : ∃ done, (lexemes s).foldl Builder.feed {} = Builder.above done {} := by
    cases hb : (lexemes s).foldl Builder.feed {} with
    | mk frames done =>
      rw [ClosesBrackets, hb] at hclosed
      exact ⟨done, by simpa [Builder.above] using hclosed⟩
  have hself : TokenTree.ofText s = done.reverse := by
    rw [TokenTree.ofText, TokenTree.ofLexemes, hdone, Builder.finish_above]
    exact List.append_nil _
  rw [hself, TokenTree.ofText, TokenTree.ofLexemes, lexemes_append_of_endsOutside hends hr,
    List.foldl_append, hdone, Builder.foldl_feed_above, Builder.finish_above]
  rfl

theorem bars_comma (r : List Char) : Bars (',' :: r) where
  halts := by
    rintro c ⟨⟩
    decide
  space := by
    rintro c ⟨⟩
    decide

/-! ## Selector lists -/

/-- Segments in a row are read if all of them are. -/
theorem readSegments_append_eq_ok {α : Type} {read : List Item → Except Failure α}
    {segs segs' : List (List Item)} {as : List α} :
    readSegments read (segs ++ segs') = .ok as ↔
      ∃ bs cs, readSegments read segs = .ok bs ∧ readSegments read segs' = .ok cs ∧
        bs ++ cs = as := by
  induction segs generalizing as with
  | nil => simp [readSegments]
  | cons s segs ih =>
    rw [List.cons_append, readSegments, readSegments]
    cases read s with
    | error f => simp
    | ok a =>
      have hmap (x : Except Failure (List α)) (bs : List α) :
          x.map (a :: ·) = .ok bs ↔ ∃ cs, x = .ok cs ∧ a :: cs = bs := by
        cases x <;> simp [Except.map]
      show (readSegments read (segs ++ segs')).map (a :: ·) = .ok as ↔
        ∃ bs cs, (readSegments read segs).map (a :: ·) = .ok bs ∧ _
      simp only [hmap, ih]
      constructor
      · rintro ⟨_, ⟨bs, cs, hbs, hcs, rfl⟩, rfl⟩
        exact ⟨_, cs, ⟨bs, hbs, rfl⟩, hcs, rfl⟩
      · rintro ⟨_, cs, ⟨bs, hbs, rfl⟩, hcs, rfl⟩
        exact ⟨_, ⟨bs, cs, hbs, hcs, rfl⟩, rfl⟩

namespace SelectorList

theorem map_matchOrder_map_mk (ss : List (List Component)) :
    (ss.map Selector.mk).map Selector.matchOrder = ss := by
  rw [List.map_map]
  exact List.map_id ss

theorem map_mk_map_matchOrder (ss : List Selector) :
    (ss.map Selector.matchOrder).map Selector.mk = ss := by
  rw [List.map_map]
  exact List.map_id ss

theorem parse_eq_ok_iff {source : String} {l : SelectorList} :
    parse source = .ok l ↔
      readSelectorList (Item.ofTrees (TokenTree.ofText source.toList)) =
        .ok (l.selectors.map Selector.matchOrder) := by
  rw [parse, read]
  cases readSelectorList (Item.ofTrees (TokenTree.ofText source.toList)) with
  | error f => constructor <;> rintro ⟨⟩
  | ok ss =>
    simp only [Except.mapError, Except.map, Except.ok.injEq]
    constructor
    · rintro rfl
      exact (map_matchOrder_map_mk ss).symm
    · rintro rfl
      rw [map_mk_map_matchOrder]

/-- The selectors of a text on both sides of a comma. -/
theorem parse_append_comma_eq_ok {s r : String} (hends : EndsOutside s.toList)
    (hclosed : ClosesBrackets s.toList) {l : SelectorList} :
    parse (s ++ "," ++ r) = .ok l ↔
      ∃ front back, parse s = .ok front ∧ parse r = .ok back ∧
        front.selectors ++ back.selectors = l.selectors := by
  have htext : (s ++ "," ++ r).toList = s.toList ++ ',' :: r.toList := by simp
  have hcomma : TokenTree.ofText (',' :: r.toList) =
      .leaf ⟨.comma, [',']⟩ :: TokenTree.ofText r.toList := spells_comma.ofText_append trivial
  simp only [parse_eq_ok_iff, readSelectorList]
  -- The comma is no part of a group, so the segments are those of both sides in a row.
  rw [htext, ofText_append_of_closesBrackets hends hclosed (bars_comma _), hcomma,
    Item.ofTrees_append, Item.ofTrees, segments_append rfl, readSegments_append_eq_ok]
  constructor
  · rintro ⟨ss, rs, hss, hrs, hl⟩
    have hselectors : (ss ++ rs).map Selector.mk = l.selectors := by rw [hl, map_mk_map_matchOrder]
    rw [List.map_append] at hselectors
    exact ⟨⟨ss.map Selector.mk⟩, ⟨rs.map Selector.mk⟩, by rw [hss, map_matchOrder_map_mk],
      by rw [hrs, map_matchOrder_map_mk], hselectors⟩
  · rintro ⟨front, back, hfront, hback, hl⟩
    exact ⟨_, _, hfront, hback, by rw [← hl, List.map_append]⟩

end SelectorList

namespace Adapt

variable {edit : Chain → Chain → Chain} {other s r t : String}

/-- The text in front of a comma and the text behind it are adapted on their own. -/
theorem withFirstChain_append_comma (hends : EndsOutside s.toList)
    (hclosed : ClosesBrackets s.toList) :
    withFirstChain edit other (s ++ "," ++ r) = .ok t ↔
      ∃ v w, withFirstChain edit other s = .ok v ∧ withFirstChain edit other r = .ok w ∧
        v ++ ", " ++ w = t := by
  have hprint {front back : SelectorList} {l : SelectorList} (hfront : front.chains ≠ [])
      (hback : back.chains ≠ []) (hl : front.selectors ++ back.selectors = l.selectors)
      (f : Chain → Chain) :
      (SelectorList.ofChains (l.chains.map f)).print =
        (SelectorList.ofChains (front.chains.map f)).print ++ ", " ++
          (SelectorList.ofChains (back.chains.map f)).print := by
    have hchains : l.chains = front.chains ++ back.chains := by
      simp only [SelectorList.chains, ← hl, List.map_append]
    rw [SelectorList.print_ofChains, SelectorList.print_ofChains (front.chains.map f),
      SelectorList.print_ofChains (back.chains.map f), hchains, List.map_append, List.map_append]
    exact String.intercalate_append_of_ne_nil (by simpa using hfront) (by simpa using hback)
  have hne {source : String} {l : SelectorList} (h : SelectorList.parse source = .ok l) :
      l.chains ≠ [] := SelectorList.chains_ne_nil (SelectorList.read_of_parse h)
  simp only [withFirstChain_eq_ok_iff, SelectorList.parse_append_comma_eq_ok hends hclosed]
  constructor
  · rintro ⟨l, other', ⟨front, back, hfront, hback, hl⟩, hother, rfl⟩
    exact ⟨_, _, ⟨front, other', hfront, hother, rfl⟩, ⟨back, other', hback, hother, rfl⟩,
      (hprint (hne hfront) (hne hback) hl _).symm⟩
  · rintro ⟨_, _, ⟨front, other', hfront, hother, rfl⟩, ⟨back, other'', hback, hother', rfl⟩, rfl⟩
    -- Both sides are combined with the same chain, as it is read from the same text.
    obtain rfl : other' = other'' := Except.ok.inj (hother.symm.trans hother')
    exact ⟨⟨front.selectors ++ back.selectors⟩, other', ⟨front, back, hfront, hback, rfl⟩, hother,
      hprint (hne hfront) (hne hback) rfl _⟩

/-- Where a text ends outside its lexemes and leaves no bracket open, it and what stands behind a
comma are adapted on their own. Both must be adapted for the whole to be, and then the texts that
come of them stand between a comma and a space. -/
theorem adapt_append_comma (s r : String) (hends : EndsOutside s.toList)
    (hclosed : ClosesBrackets s.toList) :
    (∀ bodyClass replacement t, retargetBody bodyClass replacement (s ++ "," ++ r) = .ok t ↔
      ∃ v w, retargetBody bodyClass replacement s = .ok v ∧
        retargetBody bodyClass replacement r = .ok w ∧ v ++ ", " ++ w = t) ∧
    ∀ wrapper t, addWrapper wrapper (s ++ "," ++ r) = .ok t ↔
      ∃ v w, addWrapper wrapper s = .ok v ∧ addWrapper wrapper r = .ok w ∧ v ++ ", " ++ w = t :=
  ⟨fun _ _ _ => withFirstChain_append_comma hends hclosed,
    fun _ _ => withFirstChain_append_comma hends hclosed⟩

/-- Commas between brackets, in a string and in a comment, which are no commas of the list. -/
theorem adapt_append_comma_brackets :
    let s := "a:not(b, [c=\",\"])"
    let r := "body /* , */ .d"
    EndsOutside s.toList ∧ ClosesBrackets s.toList ∧
      retargetBody "x" "u + .x" (s ++ "," ++ r) = .ok "u + .x a:not(b, [c=\",\"]), u + .x .d" ∧
      addWrapper "[owa]" (s ++ "," ++ r) = .ok "[owa] a:not(b, [c=\",\"]), [owa] body .d" := by
  intro s r
  have hends : EndsOutside s.toList := by decide +kernel
  have hclosed : ClosesBrackets s.toList := by decide +kernel
  obtain ⟨hretarget, hwrap⟩ := adapt_append_comma s r hends hclosed
  refine ⟨hends, hclosed, (hretarget _ _ _).2 ?_, (hwrap _ _).2 ?_⟩
  · exact ⟨"u + .x a:not(b, [c=\",\"])", "u + .x .d", by decide +kernel, by decide +kernel,
      by decide⟩
  · exact ⟨"[owa] a:not(b, [c=\",\"])", "[owa] body .d", by decide +kernel, by decide +kernel,
      by decide⟩

end Adapt

end MailCss
