import MailCss.Proofs.Reading.Params
import MailCss.Stylesheet.Basic
import MailCss.Text.Blank

/-!
# Plain style sheets

Style sheets whose texts are what reading a style sheet finds: trimmed, and without anything in
them that reading takes for the end of the text or for another node.

A selector, a property and a value have no brackets, quotes, semicolons, backslashes and comments.
Parameters may have parentheses as well, if these match; white space outside them is single spaces.
The one token that can have two opening parentheses in it is a url that is broken by the second;
parameters are plain without that, as they are where no url is in them (`oneParen_of_noUrl`).

All this can be computed.
-/

namespace MailCss

open Css

/-- A text of a selector, a property or a value. -/
structure PlainText (s : List Char) : Prop where
  trimmed : Text.trim s = s
  calm : Calm s
  noParen : ∀ c ∈ s, c ≠ '(' ∧ c ≠ ')'

/-- A text that does not begin with an at sign or with a comment delimiter of HTML. -/
structure BeginsPrelude (s : List Char) : Prop where
  noAt : s.head? ≠ some '@'
  noOpen : s.take 4 ≠ ['<', '!', '-', '-']
  noClose : s.take 3 ≠ ['-', '-', '>']

/-- The name of an at-rule: an ASCII letter, and then ASCII letters, digits, hyphens and
underscores. -/
structure PlainName (s : List Char) : Prop where
  head : ∃ c ∈ s.head?, c.isAlpha = true
  chars : ∀ c ∈ s, c.isAlphanum = true ∨ c = '-' ∨ c = '_'

/-- The parameters of an at-rule. -/
structure PlainParams (s : List Char) : Prop where
  trimmed : Text.trim s = s
  calm : Calm s
  closed : closesAll 0 s = true
  spaced : singleSpaced 0 false s = true
  oneParen : ∀ x ∈ lexemes s, x.source.count '(' ≤ 1

/-- The text of a comment. -/
structure PlainComment (s : List Char) : Prop where
  trimmed : Text.trim s = s
  noClose : ¬ ['*', '/'] <:+: s

instance (s : List Char) : Decidable (PlainText s) :=
  decidable_of_iff (Text.trim s = s ∧ Calm s ∧ s.all (fun c => c ≠ '(' ∧ c ≠ ')') = true)
    ⟨fun h => ⟨h.1, h.2.1, by simpa using h.2.2⟩,
      fun h => ⟨h.trimmed, h.calm, by simpa using h.noParen⟩⟩

instance (s : List Char) : Decidable (BeginsPrelude s) :=
  decidable_of_iff (s.head? ≠ some '@' ∧ s.take 4 ≠ ['<', '!', '-', '-'] ∧
      s.take 3 ≠ ['-', '-', '>'])
    ⟨fun h => ⟨h.1, h.2.1, h.2.2⟩, fun h => ⟨h.noAt, h.noOpen, h.noClose⟩⟩

instance (s : List Char) : Decidable (PlainName s) :=
  decidable_of_iff (s.head?.any Char.isAlpha = true ∧
      s.all (fun c => c.isAlphanum || c = '-' || c = '_') = true)
    ⟨fun h => ⟨(Option.any_eq_true _ _).1 h.1, by simpa [or_assoc] using h.2⟩,
      fun h => ⟨(Option.any_eq_true _ _).2 h.head, by simpa [or_assoc] using h.chars⟩⟩

instance (s : List Char) : Decidable (PlainParams s) :=
  decidable_of_iff (Text.trim s = s ∧ Calm s ∧ closesAll 0 s = true ∧
      singleSpaced 0 false s = true ∧ (lexemes s).all (·.source.count '(' ≤ 1) = true)
    ⟨fun h => ⟨h.1, h.2.1, h.2.2.1, h.2.2.2.1, by simpa using h.2.2.2.2⟩,
      fun h => ⟨h.trimmed, h.calm, h.closed, h.spaced, by simpa using h.oneParen⟩⟩

instance (s : List Char) : Decidable (PlainComment s) :=
  decidable_of_iff (Text.trim s = s ∧ ¬ ['*', '/'] <:+: s)
    ⟨fun h => ⟨h.1, h.2⟩, fun h => ⟨h.trimmed, h.noClose⟩⟩

namespace Node

mutual

/-- A node made of plain texts at any depth. -/
def Plain : Node → Prop
  | .rule selector nodes _ =>
    PlainText selector.toList ∧ BeginsPrelude selector.toList ∧ PlainAll nodes
  | .atRule name params (some nodes) _ =>
    PlainName name.toList ∧ PlainParams params.toList ∧ PlainAll nodes
  | .atRule name params none _ => PlainName name.toList ∧ PlainParams params.toList
  | .declaration property value =>
    PlainText property.toList ∧ BeginsPrelude property.toList ∧ property ≠ "" ∧
      ':' ∉ property.toList ∧ PlainText value.toList
  | .comment text => PlainComment text.toList

/-- Nodes made of plain texts at any depth. -/
def PlainAll : List Node → Prop
  | [] => True
  | n :: ns => Plain n ∧ PlainAll ns

end

mutual

/-- Whether a node is plain can be computed. -/
def decidablePlain : ∀ n : Node, Decidable n.Plain
  | .rule selector nodes _ =>
    have := decidablePlainAll nodes
    inferInstanceAs (Decidable (PlainText selector.toList ∧ BeginsPrelude selector.toList ∧
      PlainAll nodes))
  | .atRule name params (some nodes) _ =>
    have := decidablePlainAll nodes
    inferInstanceAs (Decidable (PlainName name.toList ∧ PlainParams params.toList ∧
      PlainAll nodes))
  | .atRule name params none _ =>
    inferInstanceAs (Decidable (PlainName name.toList ∧ PlainParams params.toList))
  | .declaration property value =>
    inferInstanceAs (Decidable (PlainText property.toList ∧ BeginsPrelude property.toList ∧
      property ≠ "" ∧ ':' ∉ property.toList ∧ PlainText value.toList))
  | .comment text => inferInstanceAs (Decidable (PlainComment text.toList))

/-- Whether nodes are plain can be computed. -/
def decidablePlainAll : ∀ ns : List Node, Decidable (PlainAll ns)
  | [] => inferInstanceAs (Decidable True)
  | n :: ns =>
    have := decidablePlain n
    have := decidablePlainAll ns
    inferInstanceAs (Decidable (Plain n ∧ PlainAll ns))

end

end Node

/-- A style sheet made of plain texts. -/
def Stylesheet.Plain (t : Stylesheet) : Prop := Node.PlainAll t.nodes

instance (t : Stylesheet) : Decidable t.Plain := Node.decidablePlainAll t.nodes

/-! ## Parameters without urls -/

/-- Without backslashes, a name means what it says, but for NUL. -/
theorem unescape_eq_map {s : List Char} (h : '\\' ∉ s) : unescape s = s.map literal := by
  unfold unescape
  induction s with
  | nil => rfl
  | cons c s ih =>
    rw [List.mem_cons, not_or] at h
    have hc : c ≠ '\\' := fun hc => h.1 hc.symm
    simp [unescapeFrom, Escape.claims, Escape.meaning, hc, ih h.2]

/-- A name that means `url` is written so. -/
theorem toLower_of_isUrlName {w : List Char} (hslash : '\\' ∉ w)
    (h : isUrlName (unescape w) = true) : w.map Char.toLower = ['u', 'r', 'l'] := by
  rw [unescape_eq_map hslash, isUrlName, decide_eq_true_eq, List.map_map] at h
  rw [← h]
  refine List.map_congr_left fun c hc => ?_
  have hne : c ≠ '\x00' := by
    rintro rfl
    have hmem := List.mem_map_of_mem (f := Char.toLower ∘ literal) hc
    rw [h] at hmem
    revert hmem
    decide
  simp [literal, hne]

theorem Css.Lexeme.IsWord.count_eq_zero {x : Lexeme} (h : x.IsWord) : x.source.count '(' = 0 :=
  List.count_eq_zero.2 fun hc => (ne_of_isWordChar (h.chars _ hc)).2.1 rfl

/-- A name that does not begin with `url(` in any case has one opening parenthesis behind it, or
none. -/
theorem scanIdentLike_oneParen {s : List Char} (hslash : '\\' ∉ s)
    (hurl : ¬ ['u', 'r', 'l', '('] <+: s.map Char.toLower) :
    (scanIdentLike s).source.count '(' ≤ 1 := by
  have hname := isWordChar_spanName hslash
  have hzero : (spanName s).1.count '(' = 0 :=
    List.count_eq_zero.2 fun hc => (ne_of_isWordChar (hname _ hc)).2.1 rfl
  by_cases hparen : (spanName s).2.head? = some '('
  · obtain ⟨r, hr⟩ := List.head?_eq_some_iff.1 hparen
    cases hmeaning : isUrlName (unescape (spanName s).1) with
    | false =>
      rw [scanIdentLike_function hr hmeaning, List.count_append, hzero]
      decide
    | true =>
      -- The name and the parenthesis are the text that is not there.
      have happend := spanName_append s
      have hlower := toLower_of_isUrlName (fun hmem => hslash (by
        rw [← happend]
        exact List.mem_append_left _ hmem)) hmeaning
      refine absurd ⟨r.map Char.toLower, ?_⟩ hurl
      rw [← happend, hr, List.map_append, hlower]
      simp
  · rw [scanIdentLike_ident hparen, hzero]
    exact Nat.zero_le 1

/-- In a calm text without `url(` in any case, no token has two opening parentheses. -/
theorem oneParen_of_noUrl {s : List Char} (h : Calm s)
    (hurl : ¬ ['u', 'r', 'l', '('] <:+: s.map Char.toLower) :
    ∀ x ∈ lexemes s, x.source.count '(' ≤ 1 := by
  intro x hx
  obtain ⟨a, t, ⟨front, hfront⟩, rfl⟩ := exists_suffix_of_mem_lexemes hx
  rw [← hfront] at h hurl
  have hcalm := h.of_append
  have hslash : '\\' ∉ a :: t := hcalm.not_mem rfl
  have hslash' : '\\' ∉ t := fun hmem => hslash (List.mem_cons_of_mem _ hmem)
  have ha := hcalm.chars a List.mem_cons_self
  apply scan_elim (p := fun x => x.source.count '(' ≤ 1)
  case space =>
    intro _
    rw [List.count_eq_zero.2 fun hc => (ne_of_isSpace (List.mem_takeWhile_imp hc)).1 rfl]
    exact Nat.zero_le 1
  case comment =>
    rintro rfl hhead
    obtain ⟨r, rfl⟩ := List.head?_eq_some_iff.1 hhead
    exact absurd ⟨[], r, rfl⟩ hcalm.comment
  case string => rintro (rfl | rfl) <;> exact absurd ha (by decide)
  case hash => intro _; rw [(scanHash_isWord hslash').count_eq_zero]; exact Nat.zero_le 1
  case at_sign => intro _; rw [(scanAt_isWord hslash').count_eq_zero]; exact Nat.zero_le 1
  case numeric => intro _; rw [(scanNumeric_isWord hslash).count_eq_zero]; exact Nat.zero_le 1
  case commentClose => intro _; decide
  case commentOpen => intro _; decide
  case identLike =>
    intro _
    refine scanIdentLike_oneParen hslash fun hprefix => hurl ?_
    rw [List.map_append]
    exact hprefix.isInfix.trans (List.suffix_append _ _).isInfix
  case punctuation =>
    have hsingle : [a].count '(' ≤ 1 := List.count_le_length
    have hmatcher : [a, '='].count '(' = [a].count '(' := by
      rw [← List.singleton_append, List.count_append]
      rfl
    rcases scanPunctuation_cases a t with ⟨u, -, hread⟩ | hread <;> rw [hread]
    · exact hmatcher.trans_le hsingle
    · exact hsingle

end MailCss
