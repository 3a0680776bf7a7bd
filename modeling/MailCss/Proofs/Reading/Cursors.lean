import MailCss.Proofs.Css.Levels
import MailCss.Proofs.Reading.Loops

/-!
# Cursors in front of trees

A cursor on a level of a text stands in front of the trees with which the level ends. Its next token
is the first one of the next tree. If that tree is a group, the group is open then, and the cursor
inside it stands in front of the trees of the group. What is left of the group is skipped later, and
skipping leads behind the group.

Main statements: `Between.next` (the next token takes a cursor past the next tree) and
`Enters.inGroup_eq` (a group that is read to its end is left behind its closing bracket).
-/

namespace MailCss

open Css (Token TokenTree Lexeme Levels lexemes)
open Css.TokenTree (sourceAll sourceAll_append)

/-! ## Lexemes of the text that is left -/

/-- Behind its first lexemes, a text has the others. -/
theorem lexemes_drop {s : List Char} {xs ys : List Lexeme} (h : lexemes s = xs ++ ys) :
    lexemes (s.drop (xs.flatMap Lexeme.source).length) = ys := by
  induction xs generalizing s with
  | nil => simpa using h
  | cons x xs ih =>
    cases s with
    | nil => cases h
    | cons a r =>
      rw [Css.lexemes_cons, List.cons_append] at h
      obtain ⟨rfl, hrest⟩ := List.cons.inj h
      rw [List.flatMap_cons, List.length_append, ← List.drop_drop]
      exact ih hrest

theorem take_lexemes {s : List Char} {xs ys : List Lexeme} (h : lexemes s = xs ++ ys) :
    s.take (xs.flatMap Lexeme.source).length = xs.flatMap Lexeme.source := by
  have hs := Css.lexemes_source s
  rw [h, List.flatMap_append] at hs
  rw [← hs, List.take_left']
  rfl

namespace Cursor

variable {c d e start : Cursor} {t : TokenTree} {ts ts' us done : List TokenTree} {x : Lexeme}
  {ys zs : List Lexeme} {tok : Token} {w : List Char}

/-- What is read up to some lexemes leaves the lexemes behind them. -/
theorem reads_lexemes {xs : List Lexeme} (h : lexemes c.rest = xs ++ ys) :
    c.Reads (xs.flatMap Lexeme.source) (c.skip (xs.flatMap Lexeme.source).length) ∧
      lexemes (c.skip (xs.flatMap Lexeme.source).length).rest = ys := by
  have hread := c.reads_skip (xs.flatMap Lexeme.source).length
  rw [take_lexemes h] at hread
  exact ⟨hread, lexemes_drop h⟩

/-! ## Cursors in front of trees -/

/-- The cursor stands in front of the trees `ts`, with which its level ends, and the lexemes `ys`
are behind the level. -/
structure At (c : Cursor) (ts : List TokenTree) (ys : List Lexeme) : Prop where
  opened : c.opened = none
  levels : Levels c.stop (lexemes c.rest) ts ys

theorem settle_of_opened_eq_none (h : c.opened = none) : c.settle = c := by
  rw [settle, h]

theorem opened_settle (c : Cursor) : c.settle.opened = none := by
  rw [settle]
  split
  · assumption
  · rfl

theorem stop_settle (c : Cursor) : c.settle.stop = c.stop := by
  rw [settle]
  split <;> rfl

theorem lengthOwed_leaf (hne : some tok ≠ some x.token) (hopen : x.token.closer? = none)
    (owed : List Token) (xs : List Lexeme) :
    lengthOwed (tok :: owed) (x :: xs) = x.source.length + lengthOwed (tok :: owed) xs := by
  rw [lengthOwed, if_neg fun hx => hne (by rw [hx]), hopen]

theorem lengthOwed_group {u : Token} (hne : some tok ≠ some x.token)
    (hopen : x.token.closer? = some u) (owed : List Token) (xs : List Lexeme) :
    lengthOwed (tok :: owed) (x :: xs) = x.source.length + lengthOwed (u :: tok :: owed) xs := by
  rw [lengthOwed, if_neg fun hx => hne (by rw [hx]), hopen]

/-- What is owed inside a group lies behind the trees of its level. -/
theorem lengthOwed_of_levels {stop : Option Token} {xs : List Lexeme} (h : Levels stop xs ts ys)
    (hstop : stop = some tok) (owed : List Token) :
    lengthOwed (tok :: owed) xs = (sourceAll ts).length + lengthOwed (tok :: owed) ys := by
  induction h generalizing tok owed with
  | ended | stopped => simp [sourceAll]
  | leaf hne hopen _ ih =>
    subst hstop
    rw [lengthOwed_leaf hne hopen, ih rfl]
    simp [sourceAll, TokenTree.source, Nat.add_assoc]
  | closed hne hopen _ hy _ ihin ih =>
    subst hstop
    rw [lengthOwed_group hne hopen, ihin rfl, lengthOwed, if_pos hy, ih rfl]
    simp only [sourceAll, TokenTree.source, List.length_append]
    omega
  | cut hne hopen _ ih =>
    subst hstop
    rw [lengthOwed_group hne hopen, ih rfl]
    simp [sourceAll, TokenTree.source, lengthOwed]

/-- Where the trees `us` are in front of it in a group that is open, a cursor settles behind them
and the closing lexeme. -/
theorem settle_of_levels (hopened : c.opened = some tok)
    (h : Levels (some tok) (lexemes c.rest) us zs) :
    c.Reads (sourceAll us ++ (zs.take 1).flatMap Lexeme.source) c.settle ∧
      lexemes c.settle.rest = zs.drop 1 := by
  obtain ⟨front, hfront, hsource⟩ := h.exists_append
  have hsplit : lexemes c.rest = (front ++ zs.take 1) ++ zs.drop 1 := by
    rw [List.append_assoc, List.take_append_drop, hfront]
  have hclosing : lengthOwed [tok] zs = ((zs.take 1).flatMap Lexeme.source).length := by
    rcases h.end_eq with rfl | ⟨y, zs, rfl, hy⟩
    · rfl
    · rw [lengthOwed, if_pos (Option.some.inj hy).symm]
      simp [lengthOwed]
  have hlength : lengthOwed [tok] (lexemes c.rest) =
      ((front ++ zs.take 1).flatMap Lexeme.source).length := by
    rw [lengthOwed_of_levels h rfl, hclosing, ← hsource]
    simp
  obtain ⟨⟨hrest, hmark⟩, hlexemes⟩ := reads_lexemes hsplit
  rw [List.flatMap_append, hsource] at hrest hmark
  rw [settle, hopened]
  simp only
  rw [hlength]
  rw [List.flatMap_append, hsource] at hlexemes ⊢
  exact ⟨⟨hrest, hmark⟩, hlexemes⟩

theorem Reads.ext (h : c.Reads w d) (h' : c.Reads w e) (hopened : d.opened = e.opened)
    (hstop : d.stop = e.stop) : d = e := by
  have hrest : d.rest = e.rest := by
    have hboth := h.rest.symm.trans h'.rest
    exact List.append_cancel_left hboth
  have hmark : d.mark = e.mark := h.mark.trans h'.mark.symm
  obtain ⟨mark, rest, opened, stop⟩ := d
  cases hrest
  cases hmark
  cases hopened
  cases hstop
  rfl

/-- The cursor `d` is right behind the first lexeme of a tree that `c` is in front of; if the tree is
a group, that group is open. -/
inductive Enters (c d : Cursor) : TokenTree → Prop where
  | leaf {x : Lexeme} : x.token.closer? = none → c.Reads x.source d → d.opened = none →
      Enters c d (.leaf x)
  | group {x : Lexeme} {us : List TokenTree} {closer : List Char} {zs : List Lexeme} :
      x.token.closer?.isSome → c.Reads x.source d → d.opened = x.token.closer? →
      d.inside.At us zs → c.Reads (TokenTree.group x us closer).source d.settle →
      Enters c d (.group x us closer)

theorem Enters.head (h : c.Enters d t) : c.Reads t.head.source d := by
  cases h with
  | leaf _ hread | group _ hread => exact hread

/-- Behind the tree is where the cursor settles. -/
theorem Enters.tree (h : c.Enters d t) : c.Reads t.source d.settle := by
  cases h with
  | leaf _ hread hopened =>
    rw [settle_of_opened_eq_none hopened]
    exact hread
  | group _ _ _ _ hread => exact hread

theorem next_settle (c : Cursor) : c.settle.next = c.next := by
  simp only [next, settle_of_opened_eq_none c.opened_settle]

/-- Where the level ends, there is no next token. -/
theorem next_of_at_nil (h : c.settle.At [] ys) : c.next = (none, c.settle) := by
  have hlevels := h.levels
  simp only [next]
  split
  · rfl
  · rename_i a r hrest
    rw [hrest, Css.lexemes_cons] at hlevels
    cases hlevels with
    | stopped hstop => rw [if_pos hstop]

/-- The next token is that of the next tree, and behind the tree its level goes on. -/
theorem next_of_at (h : c.settle.At (t :: ts) ys) : ∃ d, c.next = (some t.head, d) ∧
    c.settle.Enters d t ∧ d.settle.At ts ys ∧ d.stop = c.stop := by
  have hlevels := h.levels
  cases hrest : c.settle.rest with
  | nil =>
    rw [hrest] at hlevels
    cases hlevels
  | cons a r =>
    let x := Css.scan a r
    let d : Cursor := { c.settle.skip x.source.length with opened := x.token.closer? }
    have hcons : lexemes c.settle.rest = [x] ++ lexemes d.rest := by
      rw [hrest, Css.lexemes_cons]
      show _ = x :: lexemes (c.settle.rest.drop x.source.length)
      rw [hrest]
    have hread : c.settle.Reads x.source d := by
      obtain ⟨⟨hrest, hmark⟩, -⟩ := reads_lexemes hcons
      rw [List.flatMap_singleton] at hrest hmark
      exact ⟨hrest, hmark⟩
    rw [hcons, List.singleton_append] at hlevels
    have hnext : c.next = (some x, d) := by
      simp only [next, hrest]
      rw [if_neg hlevels.stop_ne]
    have hstop : d.stop = c.settle.stop := rfl
    rcases hlevels.leaf_or_group with ⟨hopen, rfl, hbehind⟩ |
      ⟨tok, us, zs, hopen, hin, rfl, hbehind⟩
    · refine ⟨d, hnext, .leaf hopen hread hopen, ?_, hstop.trans c.stop_settle⟩
      rw [settle_of_opened_eq_none hopen]
      exact ⟨hopen, hbehind⟩
    · have hopened : d.opened = some tok := hopen
      have hinside : d.inside.At us zs := ⟨rfl, by rw [inside, hopened]; exact hin⟩
      obtain ⟨htree, hrest⟩ := settle_of_levels hopened hin
      refine ⟨d, hnext, .group (by rw [hopen]; rfl) hread rfl hinside ?_, ⟨d.opened_settle, ?_⟩,
        hstop.trans c.stop_settle⟩
      · simpa [TokenTree.source] using hread.trans htree
      · rw [stop_settle, hstop, hrest]
        exact hbehind

/-- The cursor has passed the trees `done` from `start` on and has the trees `ts` in front of it,
with which the level ends. -/
structure Between (start : Cursor) (done ts : List TokenTree) (ys : List Lexeme) (c : Cursor) :
    Prop where
  passed : start.Reads (sourceAll done) c.settle
  ahead : c.settle.At ts ys
  stop : c.stop = start.stop

theorem At.between (h : c.At ts ys) : Between c [] ts ys c := by
  have hsettle := settle_of_opened_eq_none h.opened
  exact ⟨by rw [hsettle]; exact .refl c, by rwa [hsettle], rfl⟩

/-- The next token takes a cursor past the next tree. -/
theorem Between.next (h : Between start done (t :: ts) ys c) : ∃ d, c.next = (some t.head, d) ∧
    c.settle.Enters d t ∧ Between start (done ++ [t]) ts ys d := by
  obtain ⟨d, hnext, henters, hat, hstop⟩ := next_of_at h.ahead
  refine ⟨d, hnext, henters, ⟨?_, hat, hstop.trans h.stop⟩⟩
  simpa [sourceAll] using h.passed.trans henters.tree

theorem Between.at (h : Between start done ts ys c) (hopened : c.opened = none) : c.At ts ys := by
  have hahead := h.ahead
  rwa [settle_of_opened_eq_none hopened] at hahead

theorem Between.trans (h : Between start done ts ys c) (hopened : c.opened = none)
    (h' : Between c us ts' ys d) : Between start (done ++ us) ts' ys d where
  passed := by
    have hpassed := h.passed
    rw [settle_of_opened_eq_none hopened] at hpassed
    rw [sourceAll_append]
    exact hpassed.trans h'.passed
  ahead := h'.ahead
  stop := h'.stop.trans h.stop

theorem Between.settle (h : Between start done ts ys c) : Between start done ts ys c.settle := by
  have hsettle := settle_of_opened_eq_none c.opened_settle
  exact ⟨by rw [hsettle]; exact h.passed, by rw [hsettle]; exact h.ahead,
    c.stop_settle.trans h.stop⟩

/-- A group that `body` reads to its end is left behind its closing bracket. -/
theorem Enters.inGroup_eq {closer : List Char} (h : c.Enters d (.group x us closer)) :
    ∃ zs, d.inside.At us zs ∧ ∀ {α : Type} {body : Cursor → Option (α × Cursor)} {a : α}
      {e : Cursor}, body d.inside = some (a, e) → Between d.inside us [] zs e →
        d.inGroup body = some ((a, true), d.settle) := by
  cases h with
  | @group _ _ _ zs hgroup hread hopened hat _ =>
    obtain ⟨tok, htok⟩ := Option.isSome_iff_exists.1 hgroup
    rw [htok] at hopened
    refine ⟨zs, hat, fun {α body a e} hbody hend => ?_⟩
    have hin : Levels (some tok) (lexemes d.rest) us zs := by
      have hlevels := hat.levels
      rwa [inside, hopened] at hlevels
    let f : Cursor := { e.settle with opened := d.opened }
    have hclosing : Levels (some tok) (lexemes f.rest) [] zs := by
      have hlevels := hend.ahead.levels
      rwa [stop_settle, hend.stop, inside, hopened] at hlevels
    -- From the opening bracket, both cursors come to the same text.
    obtain ⟨hbehind, -⟩ := settle_of_levels hopened hin
    obtain ⟨hleft, -⟩ := settle_of_levels (c := f) hopened hclosing
    have hinside : d.Reads (sourceAll us) f := ⟨hend.passed.rest, hend.passed.mark⟩
    have hboth : d.Reads (sourceAll us ++ (zs.take 1).flatMap Lexeme.source)
        { f.settle with stop := d.stop } := by
      obtain ⟨hrest, hmark⟩ := hinside.trans hleft
      exact ⟨hrest, hmark⟩
    have hsettle : { f.settle with stop := d.stop } = d.settle :=
      hboth.ext hbehind (f.opened_settle.trans d.opened_settle.symm) d.stop_settle.symm
    rw [inGroup, hbody, if_neg (by simp [hopened])]
    simp only [Option.map_some]
    rw [next_of_at_nil hend.ahead, hsettle]
    rfl

end Cursor

end MailCss
