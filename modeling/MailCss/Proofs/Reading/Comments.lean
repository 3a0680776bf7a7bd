import MailCss.Proofs.Css.Outside
import MailCss.Proofs.Reading.Heads
import MailCss.Proofs.Reading.Preludes
import MailCss.Stylesheet.Printer

/-!
# Comments that are written and read

A comment is written between its delimiters as it is, so it is closed where the closing delimiter
comes first: in its own text, if that has one. What is behind it there is read like any other text
of a style sheet. The comments of a text never have a closing delimiter in them; they are read back
whenever they are written.

Main statements: `plainComment_of_mem_parse` (the comments of a text), `ofText_comment_of_closer`
(a comment that is closed early) and `readsBack_iff` (which comments are read back).
-/

namespace MailCss

open Text (Location Mark)
open Css
open Css.TokenTree (SoundAll Sound)

/-! ## Comments of a text -/

namespace Css

/-- A comment ends at the first closing delimiter, so there is none in it. -/
theorem noClose_spanComment (s : List Char) : ¬ ['*', '/'] <:+: (spanComment s).1 := by
  fun_induction spanComment s with
  | case1 => decide
  | case2 r => decide
  | case3 c r hne text closed heq ih =>
    rw [heq] at ih
    rw [List.infix_cons_iff]
    rintro (hfront | hback)
    · -- Then the text goes on with a slash behind a star, and the comment ends here.
      obtain ⟨rfl, hslash⟩ := List.cons_prefix_cons.1 hfront
      obtain ⟨u, hu⟩ := hslash
      have hprefix := spanComment_prefix r
      rw [heq, ← hu] at hprefix
      obtain ⟨v, hv⟩ := hprefix
      exact hne _ rfl hv.symm
    · exact ih hback

/-- The text of a comment that is read has no closing delimiter. -/
theorem Lexeme.IsRead.noClose {x : Lexeme} {text : String} (hx : x.IsRead)
    (h : x.token = .comment text) : ¬ ['*', '/'] <:+: text.toList := by
  obtain ⟨c, r, rfl⟩ := hx
  revert h
  apply scan_elim_of_solid (p := fun y => y.token = .comment text → ¬ ['*', '/'] <:+: text.toList)
  case solid => intro y hsolid htext; rw [htext] at hsolid; cases hsolid
  case space => intro _ htext; cases htext
  case comment =>
    intro _ _ htext
    obtain rfl := Token.comment.inj htext
    rw [String.toList_ofList]
    exact noClose_spanComment _
  case at_sign =>
    intro _ htext
    unfold scanAt at htext
    split at htext <;> cases htext
  case commentClose => intro _ htext; cases htext
  case commentOpen => intro _ htext; cases htext
  case punctuation =>
    intro htext
    have hbegins := (scanPunctuation_beginsPrelude c r).1
    rw [htext] at hbegins
    cases hbegins

end Css

theorem isInfix_trim (s : List Char) : Text.trim s <:+: s := by
  obtain ⟨front, back, hs, -⟩ := Text.exists_eq_append_trim s
  exact ⟨front, back, by rw [List.append_assoc]; exact hs.symm⟩

/-- The comments of a text are plain. -/
theorem plainComment_of_mem_parse {css text : String}
    (h : .comment text ∈ Node.withinAll (Stylesheet.parse css).nodes) :
    PlainComment text.toList := by
  obtain ⟨start, ts, hlevel, before, x, raw, after, rfl, -, hraw, rfl⟩ := exists_level_of_mem_parse h
  have hleaf := hlevel.soundAll.sound (.leaf x) (by simp)
  rw [Sound] at hleaf
  have hnoClose := hleaf.1.noClose hraw
  rw [String.toList_ofList]
  exact ⟨Text.trim_trim _, fun hclose => hnoClose (hclose.trans (isInfix_trim _))⟩

/-! ## Reading a comment that was written -/

/-- A comment is read up to where it is closed first, and then what is behind that. -/
theorem readTrees_comment {s : List Char} (h : ¬ ['*', '/'] <:+: s) (m : Mark) (r : List Char) :
    readTrees m .nothing (TokenTree.ofText ('/' :: '*' :: (s ++ '*' :: '/' :: r))) =
      .node (.comment (String.ofList (Text.trim s))) ++
        readTrees (m.advance ('/' :: '*' :: (s ++ ['*', '/']))) .nothing (TokenTree.ofText r) := by
  have hnested : Nested [⟨.comment (String.ofList s), '/' :: '*' :: (s ++ ['*', '/'])⟩]
      [.leaf ⟨.comment (String.ofList s), '/' :: '*' :: (s ++ ['*', '/'])⟩] := .leaf rfl rfl .nil
  have htrees := TokenTree.ofLexemes_append_of_nested hnested (lexemes r)
  rw [List.singleton_append] at htrees
  rw [TokenTree.ofText, lexemes_comment h, htrees, List.singleton_append, readTrees,
    readTree_between m rfl, String.toList_ofList]
  rfl

/-- What is read of a comment that is written alone. -/
def rereadComment (text : String) : Reading :=
  Reading.ofText (Stylesheet.text ⟨[.comment text]⟩)

/-- A comment is read back: written alone, it is read as itself and nothing else. -/
def ReadsBack (text : String) : Prop := rereadComment text = .node (.comment text)

theorem text_comment (text : String) : Stylesheet.text ⟨[.comment text]⟩ =
    '/' :: '*' :: ' ' :: (text.toList ++ [' ', '*', '/', '\n']) := by
  simp [Stylesheet.text, Node.linesAll, Node.lines, Node.gap, Line.text, Line.indent]

/-- Where a comment is closed in its own text, the rest of the text is read behind it. -/
theorem rereadComment_of_closer {text : String} {a b : List Char}
    (htext : text.toList = a ++ '*' :: '/' :: b) (ha : ¬ ['*', '/'] <:+: a) :
    rereadComment text = .node (.comment (String.ofList (Text.trim a))) ++
      readTrees (Mark.start.advance ('/' :: '*' :: ' ' :: (a ++ ['*', '/']))) .nothing
        (TokenTree.ofText (b ++ [' ', '*', '/', '\n'])) := by
  have hspace : ¬ ['*', '/'] <:+: ' ' :: a :=
    not_isInfix_append (s := []) (by decide) ha (by decide) (by decide)
  have hread := readTrees_comment hspace .start (b ++ [' ', '*', '/', '\n'])
  rw [Text.trim_cons_space] at hread
  rw [rereadComment, text_comment, htext, Reading.ofText]
  simpa using hread

/-- A comment that is closed by its own closing delimiter only is read as its trimmed text. -/
theorem rereadComment_of_noClose {text : String} (h : ¬ ['*', '/'] <:+: text.toList) :
    rereadComment text = .node (.comment (String.ofList (Text.trim text.toList))) := by
  have hspaces : ¬ ['*', '/'] <:+: ' ' :: (text.toList ++ [' ']) :=
    not_isInfix_append (s := []) (by decide)
      (not_isInfix_append h (by decide) (by decide) (by decide)) (by decide) (by decide)
  have hread := readTrees_comment hspaces .start ['\n']
  rw [Text.trim_cons_space, Text.trim_append_space] at hread
  have hbreak (m : Mark) : readTrees m .nothing (TokenTree.ofText ['\n']) = {} := rfl
  rw [hbreak, Reading.append_nothing] at hread
  rw [rereadComment, text_comment, Reading.ofText]
  simpa using hread

/-- Where a text has a closing delimiter, it has a first one. -/
theorem exists_first_closer {s : List Char} (h : ['*', '/'] <:+: s) :
    ∃ a b, s = a ++ '*' :: '/' :: b ∧ ¬ ['*', '/'] <:+: a := by
  have hnone := noClose_spanComment s
  cases hclosed : (spanComment s).2 with
  | false =>
    rw [spanComment_fst_of_open hclosed] at hnone
    exact absurd h hnone
  | true =>
    obtain ⟨b, hb⟩ := spanComment_prefix s
    rw [hclosed] at hb
    refine ⟨(spanComment s).1, b, ?_, hnone⟩
    rw [if_pos rfl, List.append_assoc] at hb
    exact hb.symm

/-- The comments that are read back are those without blanks at their ends and without a closing
delimiter. -/
theorem readsBack_iff {text : String} : ReadsBack text ↔ PlainComment text.toList := by
  by_cases hclose : ['*', '/'] <:+: text.toList
  · constructor
    · intro h
      obtain ⟨a, b, hab, ha⟩ := exists_first_closer hclose
      rw [ReadsBack, rereadComment_of_closer hab ha] at h
      have hnodes := congrArg Reading.nodes h
      rw [Reading.nodes_append] at hnodes
      have hfirst : Node.comment (String.ofList (Text.trim a)) = .comment text :=
        (List.cons.inj hnodes).1
      -- The text is longer than what is in front of the closing delimiter.
      have htext : text.toList = Text.trim a := by
        rw [← Node.comment.inj hfirst, String.toList_ofList]
      have hlen := (isInfix_trim a).length_le
      rw [← htext, hab, List.length_append, List.length_cons, List.length_cons] at hlen
      omega
    · intro h
      exact absurd hclose h.noClose
  · rw [ReadsBack, rereadComment_of_noClose hclose]
    constructor
    · intro h
      have hfirst : Node.comment (String.ofList (Text.trim text.toList)) = .comment text :=
        (List.cons.inj (congrArg Reading.nodes h)).1
      refine ⟨?_, hclose⟩
      conv => rhs; rw [← Node.comment.inj hfirst, String.toList_ofList]
    · intro h
      rw [h.trimmed, String.ofList_toList]

end MailCss
