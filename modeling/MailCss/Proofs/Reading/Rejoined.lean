import MailCss.Proofs.Css.Apart
import MailCss.Proofs.Reading.Kept
import MailCss.Proofs.Reading.Preludes

/-!
# Parameters that are read again

A *word* of a prelude is a stretch of trees without comments and white space between them. The
parameters of an at-rule have all words of its prelude in their order (`MailCss.Proofs.Reading.Kept`),
but behind a word something else may stand there than in the text: a space for any white space, the
next word where only comments were between them, or nothing. So the words are read again from the
parameters as they were read from the text if none of them runs together with what is behind it
there, and only then.

Main statement: `parse_keepsParams`. It comes from one invariant of reading on behind a word
(`lexemes_keptText_iff`).
-/

namespace MailCss

open Text (Location Mark)
open Css
open Css.TokenTree (sourceAll flatAll flatMap_flatAll SoundAll)

/-! ## Words and what is behind them -/

/-- The end of a word of a prelude: the text of the word, and what is behind it in the prelude and in
the parameters. -/
structure WordEnd where
  word : List Char
  source : List Char
  kept : List Char

/-- The ends of the words of a prelude. The trees come behind `word`, the text of the word that is
read so far, and there are ends of empty words between two trees that are not in words. -/
def wordEnds (word : List Char) : List TokenTree → List WordEnd
  | [] => [⟨word, [], []⟩]
  | t :: ts =>
    if t.token.isSkipped then
      ⟨word, sourceAll (t :: ts), keptText (word.getLast? = some ' ') (t :: ts)⟩ :: wordEnds [] ts
    else wordEnds (word ++ t.source) ts

/-- No word runs together with what is behind it in the text, where that is the rest of the prelude
and then `after`. -/
def ApartInText (after : List Char) (es : List WordEnd) : Prop :=
  ∀ e ∈ es, ReadApart e.word (e.source ++ after)

/-- No word runs together with what is behind it in the parameters. -/
def ApartInParams (es : List WordEnd) : Prop := ∀ e ∈ es, ReadApart e.word e.kept

instance (after : List Char) (es : List WordEnd) : Decidable (ApartInText after es) :=
  inferInstanceAs (Decidable (∀ e ∈ es, _))

instance (es : List WordEnd) : Decidable (ApartInParams es) :=
  inferInstanceAs (Decidable (∀ e ∈ es, _))

/-- Trees at the end of what is read are read from their own text. -/
theorem lexemes_behind {s after : List Char} {xs : List Lexeme} {ts : List TokenTree}
    (h : lexemes s = xs ++ (flatAll ts ++ lexemes after)) :
    lexemes (sourceAll ts ++ after) = flatAll ts ++ lexemes after := by
  have hrest := lexemes_of_append h
  rwa [List.flatMap_append, flatMap_flatAll, lexemes_source] at hrest

/-- What the parameters keep from a place on is read again if it is from where a word begins next. -/
theorem lexemes_keptText_skipped (spaced : Bool) {t : TokenTree} {ts : List TokenTree}
    (ht : t.token.isSkipped = true) (hts : ∀ u ∈ ts, u.Sound) :
    ∃ b, lexemes (keptText spaced (t :: ts)) = keptFrom spaced (t :: ts) ↔
      lexemes (keptText b ts) = keptFrom b ts := by
  rcases t.token.isSkipped_cases with ⟨text, htext⟩ | ⟨text, htext⟩ | hnot
  · exact ⟨spaced, by rw [keptText, keptFrom_comment htext, keptText]⟩
  · refine ⟨true, ?_⟩
    rw [keptText, keptFrom_whitespace htext]
    split
    · rfl
    · have hcons : (keptSpace :: keptFrom true ts).flatMap Lexeme.source =
          ' ' :: keptText true ts := rfl
      rw [hcons, lexemes_space (isSpace_of_head_keptText hts), keptSpace, List.cons.injEq, eq_self,
        true_and]
  · rw [hnot] at ht
    cases ht

/-- The lexemes that the parameters keep are read again from their text if no word runs together with
what is behind it there, and only then. Here `w` are the trees of the word that `ts` come behind. -/
theorem lexemes_keptText_iff {after : List Char} {w ts : List TokenTree} {spaced : Bool}
    (hspaced : w ≠ [] → spaced = decide ((sourceAll w).getLast? = some ' '))
    (hts : ∀ t ∈ ts, t.Sound)
    (hread : lexemes (sourceAll w ++ (sourceAll ts ++ after)) =
      flatAll w ++ (flatAll ts ++ lexemes after))
    (htext : ApartInText after (wordEnds (sourceAll w) ts)) :
    lexemes (sourceAll w ++ keptText spaced ts) = flatAll w ++ keptFrom spaced ts ↔
      ApartInParams (wordEnds (sourceAll w) ts) := by
  induction ts generalizing w spaced with
  | nil =>
    have hword : lexemes (sourceAll w) = flatAll w :=
      (htext _ List.mem_cons_self).lexemes_left hread
    simp [keptText, keptFrom, hword, wordEnds, ApartInParams, readApart_nil_right]
  | cons t ts ih =>
    obtain ⟨ht, hts'⟩ := List.forall_mem_cons.1 hts
    have hbehind := lexemes_behind hread
    rw [wordEnds] at htext ⊢
    by_cases hskip : t.token.isSkipped = true
    · rw [if_pos hskip] at htext ⊢
      obtain ⟨hsource, htext⟩ := List.forall_mem_cons.1 htext
      -- The word ends here.
      have hword : lexemes (sourceAll w) = flatAll w :=
        hsource.lexemes_left (by rw [hread, hbehind])
      have hrest (b : Bool) : lexemes (keptText b ts) = keptFrom b ts ↔
          ApartInParams (wordEnds [] ts) := by
        rw [flatAll, List.append_assoc] at hbehind
        exact ih (w := []) (fun hne => absurd rfl hne) hts' (lexemes_behind hbehind) htext
      have hnext : lexemes (keptText spaced (t :: ts)) = keptFrom spaced (t :: ts) ↔
          ApartInParams (wordEnds [] ts) := by
        obtain ⟨b, hb⟩ := lexemes_keptText_skipped spaced hskip hts'
        exact hb.trans (hrest b)
      have hkept : ReadApart (sourceAll w) (keptText ((sourceAll w).getLast? = some ' ') (t :: ts)) ↔
          ReadApart (sourceAll w) (keptText spaced (t :: ts)) := by
        cases w with
        | nil => exact iff_of_true (readApart_nil_left _) (readApart_nil_left _)
        | cons u w => rw [← hspaced (by simp)]
      rw [ApartInParams, List.forall_mem_cons, hkept, ← ApartInParams, ← hnext, ReadApart, hword]
      constructor
      · intro h
        have hrest := lexemes_of_append h
        rw [← keptText] at hrest
        exact ⟨by rw [h, hrest], hrest⟩
      · rintro ⟨h, hrest⟩
        rw [h, hrest]
    · -- The word goes on.
      have hskip' : t.token.isSkipped = false := by simpa using hskip
      rw [if_neg hskip] at htext ⊢
      have hlast : (sourceAll (w ++ [t])).getLast? = t.source.getLast? := by
        obtain ⟨c, s, hs, -⟩ := ht.exists_source
        simp [sourceAll, hs, List.getLast?_append, List.getLast?_cons]
      have hword : sourceAll (w ++ [t]) = sourceAll w ++ t.source := by simp [sourceAll]
      have hgoes : lexemes (sourceAll (w ++ [t]) ++ keptText (t.source.getLast? = some ' ') ts) =
          flatAll (w ++ [t]) ++ keptFrom (t.source.getLast? = some ' ') ts ↔
          ApartInParams (wordEnds (sourceAll (w ++ [t])) ts) :=
        ih (fun _ => by rw [hlast]) hts' (by simpa [sourceAll, flatAll] using hread)
          (by rwa [hword])
      rw [hword] at hgoes
      rw [keptText_cons hskip', keptFrom_cons hskip', ← hgoes]
      simp [flatAll]

/-! ## At-rules and their parameters -/

/-- The lexemes of a level stand in those of the text, behind those of the text in front of it and in
front of the end of the text or a closing bracket. -/
theorem Level.exists_lexemes {s start : List Char} {ts : List TokenTree} (h : Level s start ts) :
    ∃ front back, lexemes s = front ++ (flatAll ts ++ back) ∧
      front.flatMap Lexeme.source = start ∧
      back.head?.map Lexeme.token ∈ [none, some .curlyClose] := by
  induction h with
  | whole => exact ⟨[], [], by simp [TokenTree.flatAll_ofText], rfl, by simp⟩
  | @block start ts x inner closer us hlevel hx ih =>
    obtain ⟨front, back, hread, hfront, hend⟩ := ih
    refine ⟨front ++ (flatAll ts ++ [x]), x.token.closing closer ++ (flatAll us ++ back), ?_, ?_, ?_⟩
    · rw [hread]
      simp [flatAll, TokenTree.flat]
    · simp [hfront, flatMap_flatAll]
    · cases closer with
      | cons c closer => simp [Token.closing, hx, Token.closer?]
      | nil =>
        -- The block is not closed, so it is the last tree of the level around it.
        have hgroup := hlevel.soundAll.of_append
        rw [SoundAll] at hgroup
        have hus : us = [] := by
          by_contra hne
          exact hgroup.2.1 hne rfl
        simpa [Token.closing, hus, flatAll] using hend

/-- What ends the prelude of an at-rule: the bracket of its block, or without one a semicolon, the
closing bracket of the block around it or the end of the text. -/
def EndsParams (block : Option (List Node)) (back : List Lexeme) : Prop :=
  match block with
  | some _ => back.head?.map Lexeme.token = some .curlyOpen
  | none => back.head?.map Lexeme.token ∈ [none, some .semicolon, some .curlyClose]

/-- How an at-rule has the prelude `head`, which stands in the text `s` between its at-keyword and
`back`, in its parameters. They are what is kept of it, trimmed, which has everything significant of
it. Where nothing is trimmed and the words are apart in the text, this is read again from them
if the words are apart there too, and only then; it suffices that each is parted from what follows. -/
def Node.KeepsParams (s : List Char) : Node → Prop
  | .atRule name params block location => ∃ start before k head after front back,
      Level s start (before ++ .leaf k :: (head ++ after)) ∧ k.token = .atKeyword name ∧
      (∀ t ∈ head, t.endsNode = false) ∧
      lexemes s = front ++ k :: (flatAll head ++ back) ∧ EndsParams block back ∧
      location = (Mark.start.advance (front.flatMap Lexeme.source)).location ∧
      params.toList = Text.trim (keptText true head) ∧
      significant (keptFrom true head) = significant (flatAll head) ∧
      (params.toList = keptText true head →
        (ApartInText (back.flatMap Lexeme.source) (wordEnds [] head) →
          (lexemes params.toList = keptFrom true head ↔ ApartInParams (wordEnds [] head))) ∧
        ((∀ e ∈ wordEnds [] head,
            Parted e.word (e.source ++ back.flatMap Lexeme.source) ∧ Parted e.word e.kept) →
          significant (lexemes params.toList) = significant (flatAll head)))
  | .rule .. | .declaration .. | .comment _ => True

/-- An at-rule with its prelude on a level keeps it in its parameters. -/
theorem Level.keepsParams {s start : List Char} {before head after : List TokenTree}
    {k : TokenTree} {name : String} (h : Level s start (before ++ k :: (head ++ after)))
    (hk : k.token = .atKeyword name) (hhead : ∀ t ∈ head, t.endsNode = false)
    {block : Option (List Node)}
    (hend : ∀ back : List Lexeme, back.head?.map Lexeme.token ∈ [none, some .curlyClose] →
      EndsParams block (flatAll after ++ back)) :
    Node.KeepsParams s (.atRule name (paramsText head) block
      ((Mark.start.advance start).advance (sourceAll before)).location) := by
  obtain ⟨front, back, hread, hfront, hback⟩ := h.exists_lexemes
  have hsound := h.soundAll.of_append
  rw [SoundAll] at hsound
  obtain ⟨x, rfl⟩ : ∃ x, k = .leaf x := by
    cases k with
    | leaf x => exact ⟨x, rfl⟩
    | group x inner closer =>
      obtain ⟨hgroup, -⟩ := hsound
      rw [TokenTree.Sound] at hgroup
      obtain ⟨-, -, u, hu, -⟩ := hgroup
      rw [show x.token = .atKeyword name from hk] at hu
      cases hu
  have hhead' : ∀ t ∈ head, t.Sound :=
    fun t ht => hsound.2.2.sound t (List.mem_append_left _ ht)
  have hread' : lexemes s =
      (front ++ flatAll before) ++ x :: (flatAll head ++ (flatAll after ++ back)) := by
    rw [hread]
    simp [flatAll, TokenTree.flat]
  have hkept : significant (keptFrom true head) = significant (flatAll head) :=
    significant_keptFrom hhead'
  refine ⟨start, before, x, head, after, front ++ flatAll before, flatAll after ++ back, h, hk,
    hhead, hread', hend back hback, ?_, toList_paramsText head, hkept, ?_⟩
  · rw [← Text.Mark.advance_append, List.flatMap_append, hfront, flatMap_flatAll]
  · intro htrim
    -- Both what is behind the prelude and the prelude itself are read from where they begin.
    have hbehind : lexemes ((flatAll after ++ back).flatMap Lexeme.source) =
        flatAll after ++ back := by
      have hsplit : lexemes s =
          (front ++ flatAll before ++ x :: flatAll head) ++ (flatAll after ++ back) := by
        simpa using hread'
      exact lexemes_of_append hsplit
    have hprelude : lexemes s = (front ++ flatAll before ++ [x]) ++
        (flatAll head ++ lexemes ((flatAll after ++ back).flatMap Lexeme.source)) := by
      rw [hbehind]
      simpa using hread'
    have hagain (h : ApartInText ((flatAll after ++ back).flatMap Lexeme.source) (wordEnds [] head)) :
        lexemes (keptText true head) = keptFrom true head ↔ ApartInParams (wordEnds [] head) :=
      lexemes_keptText_iff (w := []) (fun hne => absurd rfl hne) hhead'
        (lexemes_behind hprelude) h
    rw [htrim]
    refine ⟨hagain, fun hparted => ?_⟩
    rw [(hagain fun e he => (hparted e he).1.readApart).2 fun e he => (hparted e he).2.readApart, hkept]

/-- Every at-rule at any depth of a text keeps its prelude in its parameters. -/
theorem parse_keepsParams (css : String) (n : Node)
    (h : n ∈ Node.withinAll (Stylesheet.parse css).nodes) : n.KeepsParams css.toList := by
  obtain ⟨start, ts, hlevel, hsource⟩ := exists_level_of_mem_parse h
  cases n with
  | atRule name params block location =>
    cases block with
    | some nodes =>
      obtain ⟨before, k, head, x, inner, closer, after, rfl, -, hk, hhead, hx, rfl, rfl, -⟩ := hsource
      refine hlevel.keepsParams hk hhead fun back _ => ?_
      simp [EndsParams, flatAll, TokenTree.flat, hx]
    | none =>
      obtain ⟨before, k, head, after, rfl, -, hk, hhead, hafter, rfl, rfl⟩ := hsource
      refine hlevel.keepsParams hk hhead fun back hback => ?_
      rcases hafter with rfl | ⟨x, us, rfl, hx⟩
      · simp only [List.mem_cons, List.not_mem_nil, or_false] at hback
        rcases hback with hback | hback <;> simp [EndsParams, flatAll, hback]
      · simp [EndsParams, flatAll, TokenTree.flat, hx]
  | rule => trivial
  | declaration => trivial
  | comment => trivial

/-- Words that end with a bracket or have white space behind them, with comments around them. -/
theorem parse_keepsParams_media :
    Node.withinAll (Stylesheet.parse "@media/**/(a)/**/and /*x*/\n(b:c),\"d\"\x7b\x7d").nodes =
        [.atRule "media" "(a)and (b:c),\"d\"" (some []) ⟨1, 0⟩] ∧
      (Node.atRule "media" "(a)and (b:c),\"d\"" (some []) ⟨1, 0⟩).KeepsParams
        "@media/**/(a)/**/and /*x*/\n(b:c),\"d\"\x7b\x7d".toList := by
  have hnodes :
      Node.withinAll (Stylesheet.parse "@media/**/(a)/**/and /*x*/\n(b:c),\"d\"\x7b\x7d").nodes =
        [.atRule "media" "(a)and (b:c),\"d\"" (some []) ⟨1, 0⟩] := by
    cbv
  refine ⟨hnodes, parse_keepsParams _ _ ?_⟩
  rw [hnodes]
  exact List.mem_cons_self

/-- Each of these words is parted from what is behind it. -/
example : ∀ e ∈ wordEnds [] (TokenTree.ofText "/**/(a)/**/and /*x*/\n(b:c),\"d\"".toList),
    Parted e.word (e.source ++ ['\x7b', '\x7d']) ∧ Parted e.word e.kept := by
  decide +kernel

/-- Only a comment is between these words, so the first runs together with the second. -/
example : ¬ ApartInParams (wordEnds [] (TokenTree.ofText "b/**/c".toList)) := by
  decide +kernel

end MailCss
