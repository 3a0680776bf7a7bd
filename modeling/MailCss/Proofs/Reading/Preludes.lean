import Mathlib
import MailCss.Proofs.Css.Trees
import MailCss.Proofs.Reading.Sources
import MailCss.Proofs.Stylesheet.Descendants
import MailCss.Proofs.Text.Trim

/-!
# The text of preludes

How much of the text of a prelude its node keeps. A *level* of a text is the row of all its trees,
or of those inside a block on another level; every node at any depth comes from a prelude or an
at-keyword on some level.

A node keeps the text of its prelude, trimmed, up to the last tree. Of a bracketed group that ends
the prelude it keeps the opening bracket only: the rest is `lost`. So a rule has the whole text in
front of its block exactly if that text does not end in a bracketed group. A declaration has its
property in any case, and its whole value exactly if nothing but blanks is lost, which takes a
group that is never closed.

Main statement: `parse_captured`.
-/

namespace MailCss

open Text (Location Mark)
open Css (TokenTree Token Lexeme)
open Css.TokenTree (sourceAll sourceAll_append SoundAll IsClosed)

/-! ## Levels -/

/-- The levels of a text, each with the text in front of it. -/
inductive Level (s : List Char) : List Char → List TokenTree → Prop where
  | whole : Level s [] (TokenTree.ofText s)
  | block {start ts x inner closer us} : Level s start (ts ++ .group x inner closer :: us) →
      x.token = .curlyOpen → Level s (start ++ (sourceAll ts ++ x.source)) inner

namespace Level

variable {s start : List Char} {ts : List TokenTree}

/-- The trees of a level are sound. -/
theorem soundAll (h : Level s start ts) : SoundAll ts := by
  induction h with
  | whole => exact TokenTree.soundAll_ofText s
  | block _ _ ih =>
    have hgroup := ih.of_append
    rw [SoundAll, TokenTree.Sound] at hgroup
    exact hgroup.1.2.1

/-- A level stands in the text as it is, and reaches to the end of the text or to a closing
bracket. -/
theorem exists_append (h : Level s start ts) :
    ∃ rest, s = start ++ (sourceAll ts ++ rest) ∧ (rest = [] ∨ rest.head? = some '\x7d') := by
  induction h with
  | whole => exact ⟨[], by simp [TokenTree.sourceAll_ofText], .inl rfl⟩
  | @block start ts x inner closer us hlevel hx ih =>
    obtain ⟨rest, hrest, hend⟩ := ih
    refine ⟨closer ++ (sourceAll us ++ rest), ?_, ?_⟩
    · rw [hrest]
      simp [sourceAll, TokenTree.source]
    · have hgroup := hlevel.soundAll.of_append
      rw [SoundAll] at hgroup
      obtain ⟨hsound, hclosed, -⟩ := hgroup
      by_cases hus : us = []
      · by_cases hcloser : closer = []
        · -- The block is not closed, so the level around it ends where it ends.
          simpa [hus, hcloser, sourceAll] using hend
        · obtain ⟨d, hd, rfl⟩ := hsound.closer_eq hcloser
          rw [hx] at hd
          cases hd
          exact .inr rfl
      · obtain ⟨d, hd, rfl⟩ := hsound.closer_eq (hclosed hus)
        rw [hx] at hd
        cases hd
        exact .inr rfl

/-- What is read in a block of a level has a source on a level. -/
theorem exists_source_block {before inner after : List TokenTree} {x : Lexeme}
    {closer : List Char} {nodes : List Node}
    (h : Level s start (before ++ .group x inner closer :: after)) (hx : x.token = .curlyOpen)
    (hnodes : nodes = (readTrees
      ((Mark.start.advance start).advance (sourceAll before ++ x.source)) .nothing inner).nodes) :
    ∀ n ∈ nodes, ∃ start ts, Level s start ts ∧ n.Source (Mark.start.advance start) ts := by
  intro n hn
  rw [hnodes, ← Mark.advance_append] at hn
  exact ⟨_, inner, h.block hx, source_of_mem_readTrees _ _ n hn⟩

end Level

mutual

/-- What is in a node that has a source on a level has one on a level too. -/
theorem exists_level_of_mem_within {s : List Char} :
    ∀ n : Node, (∃ start ts, Level s start ts ∧ n.Source (Mark.start.advance start) ts) →
      ∀ d ∈ n.within, ∃ start ts, Level s start ts ∧ d.Source (Mark.start.advance start) ts
  | .rule selector nodes location, h, d, hd => by
    rw [Node.within] at hd
    rcases List.mem_cons.1 hd with rfl | hd
    · exact h
    · obtain ⟨start, ts, hlevel, before, head, x, inner, closer, after, rfl, -, -, hx, -, -,
        hnodes⟩ := h
      rw [← List.append_assoc] at hlevel
      refine exists_level_of_mem_withinAll nodes (hlevel.exists_source_block hx ?_) d hd
      simpa using hnodes
  | .atRule name params (some nodes) location, h, d, hd => by
    rw [Node.within] at hd
    rcases List.mem_cons.1 hd with rfl | hd
    · exact h
    · obtain ⟨start, ts, hlevel, before, k, head, x, inner, closer, after, rfl, -, -, -, hx, -, -,
        hnodes⟩ := h
      have hlevel' : Level s start ((before ++ k :: head) ++ .group x inner closer :: after) := by
        simpa using hlevel
      refine exists_level_of_mem_withinAll nodes (hlevel'.exists_source_block hx ?_) d hd
      simpa [sourceAll] using hnodes
  | .atRule name params none location, h, d, hd => by
    rw [Node.within, List.mem_singleton] at hd
    rw [hd]
    exact h
  | .declaration property value, h, d, hd => by
    rw [Node.within, List.mem_singleton] at hd
    rw [hd]
    exact h
  | .comment text, h, d, hd => by
    rw [Node.within, List.mem_singleton] at hd
    rw [hd]
    exact h

theorem exists_level_of_mem_withinAll {s : List Char} :
    ∀ ns : List Node,
      (∀ n ∈ ns, ∃ start ts, Level s start ts ∧ n.Source (Mark.start.advance start) ts) →
      ∀ d ∈ Node.withinAll ns, ∃ start ts, Level s start ts ∧ d.Source (Mark.start.advance start) ts
  | [], _, d, hd => by cases hd
  | n :: ns, h, d, hd => by
    rw [Node.withinAll] at hd
    rcases List.mem_append.1 hd with hd | hd
    · exact exists_level_of_mem_within n (h n List.mem_cons_self) d hd
    · exact exists_level_of_mem_withinAll ns (fun n' hn => h n' (List.mem_cons_of_mem _ hn)) d hd

end

/-- Every node at any depth of a text has a source on a level of the text. -/
theorem exists_level_of_mem_parse {css : String} {n : Node}
    (h : n ∈ Node.withinAll (Stylesheet.parse css).nodes) :
    ∃ start ts, Level css.toList start ts ∧ n.Source (Mark.start.advance start) ts := by
  refine exists_level_of_mem_withinAll _ ?_ n h
  intro d hd
  exact ⟨[], _, .whole, source_of_mem_readTrees _ _ d hd⟩

/-! ## What a prelude loses -/

/-- A prelude that ends in a bracketed group. -/
def EndsInGroup (head : List TokenTree) : Prop :=
  ∃ x inner closer, head.getLast? = some (.group x inner closer)

/-- The text of a prelude that its node does not have: what is inside the bracketed group that it
ends in, and the closing bracket. -/
def lost (head : List TokenTree) : List Char :=
  match head.getLast? with
  | some (.group _ inner closer) => sourceAll inner ++ closer
  | _ => []

/-- The text of a prelude is what is kept and what is lost. -/
theorem preludeText_append_lost (head : List TokenTree) :
    preludeText head ++ lost head = sourceAll head := by
  induction head with
  | nil => rfl
  | cons t head ih =>
    -- Only the last tree is cut.
    cases head with
    | nil => cases t <;> simp [preludeText, lost, sourceAll, TokenTree.source, TokenTree.head]
    | cons u head =>
      have hlost : lost (t :: u :: head) = lost (u :: head) := by simp [lost]
      rw [preludeText, hlost, List.append_assoc, ih]
      · rfl
      · simp

theorem lost_eq_nil {head : List TokenTree} (h : ¬ EndsInGroup head) : lost head = [] := by
  rw [lost]
  split
  · rename_i x inner closer hlast
    exact absurd ⟨x, inner, closer, hlast⟩ h
  · rfl

theorem not_blank_of_closingMark? {t : Token} {d : Char} (h : t.closingMark? = some d) :
    Text.isBlank d = false := by
  cases t <;> cases h <;> decide

/-- In front of something else on its level, a group is closed, and its closing bracket is lost. -/
theorem exists_not_blank_of_endsInGroup {head after : List TokenTree} {t : TokenTree}
    (hsound : SoundAll (head ++ t :: after)) (h : EndsInGroup head) :
    ∃ c ∈ lost head, Text.isBlank c = false := by
  obtain ⟨x, inner, closer, hlast⟩ := h
  obtain ⟨init, rfl⟩ : ∃ init, head = init ++ [.group x inner closer] :=
    List.getLast?_eq_some_iff.1 hlast
  have hgroup : SoundAll (.group x inner closer :: t :: after) := by
    rw [List.append_assoc] at hsound
    exact hsound.of_append
  rw [SoundAll] at hgroup
  have hlost : lost (init ++ [.group x inner closer]) = sourceAll inner ++ closer := by simp [lost]
  obtain ⟨d, hd, rfl⟩ := hgroup.1.closer_eq (hgroup.2.1 (by simp))
  rw [hlost]
  exact ⟨d, by simp, not_blank_of_closingMark? hd⟩

/-! ## Preludes and their nodes -/

/-- The trees `head` are a prelude of the text `s`: `before` is the text in front of it, and
`after` are the trees behind it on its level. -/
structure PreludeOf (s before : List Char) (head after : List TokenTree) : Prop where
  onLevel : ∃ start siblings, Level s start (siblings ++ (head ++ after)) ∧ NodeStart siblings ∧
    before = start ++ sourceAll siblings
  isPrelude : IsPrelude head

/-- The declaration that a text makes has the parts of the text around its first colon, trimmed. -/
theorem cutAt?_of_declaration? {text : List Char} {property value : String}
    (h : declaration? (Text.trim text) = some (.declaration property value)) :
    ∃ p v, Sequence.cutAt? ':' text = some (p, v) ∧ property.toList = Text.trim p ∧
      value.toList = Text.trim v := by
  simp only [declaration?] at h
  split at h
  · cases h
  rename_i p v hcut
  split at h
  · cases h
  cases h
  obtain ⟨front, back, htext, hfront, hback⟩ := Text.exists_eq_append_trim text
  obtain ⟨htrim, hcolon⟩ := Sequence.cutAt?_eq_some_iff.1 hcut
  refine ⟨front ++ p, v ++ back, Sequence.cutAt?_eq_some_iff.2 ⟨?_, ?_⟩, ?_, ?_⟩
  · conv => lhs; rw [htext, htrim]
    simp
  · intro hmem
    rcases List.mem_append.1 hmem with hmem | hmem
    · have hblank : Text.isBlank ':' = true := hfront _ hmem
      revert hblank
      decide
    · exact hcolon hmem
  · rw [String.toList_ofList, Text.trim_append_left_of_blank hfront]
  · rw [String.toList_ofList, Text.trim_append_of_blank _ hback]

/-- How a node has the text of its prelude in the text `s`: it is that of the trees `head` between
`before` and `rest`, which begins with what ends the prelude. -/
def Node.Captured (s : List Char) : Node → Prop
  | .rule selector _ location => ∃ before head x inner closer after rest kept,
      PreludeOf s before head (.group x inner closer :: after) ∧ x.token = .curlyOpen ∧
      s = before ++ (sourceAll head ++ '\x7b' :: rest) ∧
      location = (Mark.start.advance before).location ∧
      sourceAll head = kept ++ lost head ∧ selector.toList = Text.trim kept ∧
      (selector.toList = Text.trim (sourceAll head) ↔ ¬ EndsInGroup head)
  | .declaration property value => ∃ before head after rest p v,
      PreludeOf s before head after ∧ EndsWithoutBlock after ∧
      s = before ++ (sourceAll head ++ rest) ∧
      (rest = [] ∨ rest.head? = some ';' ∨ rest.head? = some '\x7d') ∧
      Sequence.cutAt? ':' (sourceAll head) = some (p, v ++ lost head) ∧
      property.toList = Text.trim p ∧ value.toList = Text.trim v ∧
      (value.toList = Text.trim (v ++ lost head) ↔ ∀ c ∈ lost head, Text.isBlank c = true)
  | .atRule .. | .comment _ => True

/-- The selector of a rule is its whole prelude, unless that ends in a bracketed group. -/
theorem captured_rule {s start : List Char} {ts : List TokenTree} {selector : String}
    {nodes : List Node} {location : Location} (hlevel : Level s start ts)
    (h : Node.Source (Mark.start.advance start) ts (.rule selector nodes location)) :
    Node.Captured s (.rule selector nodes location) := by
  obtain ⟨before, head, x, inner, closer, after, rfl, hbefore, hhead, hx, hloc, rfl, -⟩ := h
  have hsound : SoundAll (head ++ .group x inner closer :: after) := hlevel.soundAll.of_append
  have hread : x.source = ['\x7b'] := by
    have hgroup := hsound.of_append
    rw [SoundAll, TokenTree.Sound] at hgroup
    exact hgroup.1.1.source_of_mark? (by rw [hx]; rfl)
  obtain ⟨rest, hrest, -⟩ := hlevel.exists_append
  have hprelude : PreludeOf s (start ++ sourceAll before) head (.group x inner closer :: after) :=
    ⟨⟨start, before, hlevel, hbefore, rfl⟩, hhead⟩
  have hsplit : sourceAll head = preludeText head ++ lost head :=
    (preludeText_append_lost head).symm
  refine ⟨_, head, x, inner, closer, after,
    sourceAll inner ++ (closer ++ (sourceAll after ++ rest)), preludeText head, hprelude, hx, ?_, ?_,
    hsplit, by simp, ?_⟩
  · rw [hrest]
    simp [sourceAll, TokenTree.source, hread]
  · rw [hloc, Text.Mark.advance_append]
  · -- The bracket that is lost is no blank, so trimming does not hide the loss.
    rw [hsplit, String.toList_ofList, eq_comm, Text.trim_append_eq_iff]
    constructor
    · intro hblank hgroup
      obtain ⟨c, hc, hnot⟩ := exists_not_blank_of_endsInGroup hsound hgroup
      rw [hblank c hc] at hnot
      cases hnot
    · intro hgroup
      simp [lost_eq_nil hgroup]

/-- The parts of a declaration are those of its prelude around the first colon, of which the value
may have lost its end. -/
theorem captured_declaration {s start : List Char} {ts : List TokenTree} {property value : String}
    (hlevel : Level s start ts)
    (h : Node.Source (Mark.start.advance start) ts (.declaration property value)) :
    Node.Captured s (.declaration property value) := by
  obtain ⟨before, head, after, rfl, hbefore, hhead, hafter, hdecl⟩ := h
  obtain ⟨rest, hrest, hend⟩ := hlevel.exists_append
  have hprelude : PreludeOf s (start ++ sourceAll before) head after :=
    ⟨⟨start, before, hlevel, hbefore, rfl⟩, hhead⟩
  obtain ⟨p, v, hcut, hp, hv⟩ := cutAt?_of_declaration? hdecl
  refine ⟨_, head, after, sourceAll after ++ rest, p, v, hprelude, hafter, ?_, ?_, ?_, hp, hv, ?_⟩
  · rw [hrest]
    simp
  · rcases hafter with rfl | ⟨x, us, rfl, hx⟩
    · rcases hend with rfl | hend
      · exact .inl rfl
      · exact .inr (.inr (by simpa [sourceAll] using hend))
    · have hsemi := hlevel.soundAll.of_append.of_append
      rw [SoundAll, TokenTree.Sound] at hsemi
      have hread : x.source = [';'] := hsemi.1.1.source_of_mark? (by rw [hx]; rfl)
      exact .inr (.inl (by simp [sourceAll, TokenTree.source, hread]))
  · rw [← preludeText_append_lost head, Sequence.cutAt?_eq_some_iff]
    obtain ⟨htext, hcolon⟩ := Sequence.cutAt?_eq_some_iff.1 hcut
    exact ⟨by rw [htext]; simp, hcolon⟩
  · rw [hv, eq_comm, Text.trim_append_eq_iff]

/-- Every rule and every declaration at any depth of a text has the text of a prelude of it: a rule
has all of it exactly if it does not end in a bracketed group, and a declaration has all of it
exactly if what is lost of such a group is blank. -/
theorem parse_captured (css : String) (n : Node)
    (h : n ∈ Node.withinAll (Stylesheet.parse css).nodes) : n.Captured css.toList := by
  obtain ⟨start, ts, hlevel, hsource⟩ := exists_level_of_mem_parse h
  cases n with
  | rule selector nodes location => exact captured_rule hlevel hsource
  | declaration property value => exact captured_declaration hlevel hsource
  | atRule => trivial
  | comment => trivial

/-- A selector that ends in the arguments of a pseudo-class is cut off after the opening bracket. -/
theorem parse_captured_not :
    Node.withinAll (Stylesheet.parse "a:not(.b){c:d}").nodes =
        [.rule "a:not(" [.declaration "c" "d"] ⟨1, 0⟩, .declaration "c" "d"] ∧
      (Node.rule "a:not(" [.declaration "c" "d"] ⟨1, 0⟩).Captured "a:not(.b){c:d}".toList := by
  have hnodes : Node.withinAll (Stylesheet.parse "a:not(.b){c:d}").nodes =
      [.rule "a:not(" [.declaration "c" "d"] ⟨1, 0⟩, .declaration "c" "d"] := by
    cbv
  refine ⟨hnodes, parse_captured _ _ ?_⟩
  rw [hnodes]
  exact List.mem_cons_self

end MailCss
