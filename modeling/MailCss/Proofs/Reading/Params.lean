import MailCss.Proofs.Css.Calm
import MailCss.Proofs.Reading.Steps

/-!
# The parameters of an at-rule

The parameters of an at-rule are kept as they are written if they are a calm text whose
parentheses match and that has single spaces for its white space outside them: no comment is left
out, no white space is changed, and what is inside a parenthesis is taken as a whole.

Main statement: `paramsFrom_of_nested`.
-/

namespace MailCss

open Css
open Css.TokenTree (sourceAll)

/-- Whether white space outside parentheses is single spaces, where `depth` parentheses are open
and `spaced` says whether there is a space in front of the text. -/
def singleSpaced (depth : Nat) (spaced : Bool) : List Char → Bool
  | [] => true
  | c :: r =>
    if c = '(' then singleSpaced (depth + 1) false r
    else if c = ')' then singleSpaced (depth - 1) false r
    else if depth = 0 ∧ isSpace c = true then c = ' ' && !spaced && singleSpaced 0 true r
    else singleSpaced depth false r

section SingleSpaced

variable (s : List Char) (depth : Nat) (spaced : Bool)

/-- Inside parentheses, any white space may stand. -/
theorem singleSpaced_succ :
    singleSpaced (depth + 1) spaced s = singleSpaced (depth + 1) false s := by
  cases s with
  | nil => rfl
  | cons c s => simp [singleSpaced]

theorem singleSpaced_inside {u : List Char} (hu : ∀ c ∈ u, c ≠ '(' ∧ c ≠ ')') :
    singleSpaced (depth + 1) spaced (u ++ s) = singleSpaced (depth + 1) false s := by
  induction u generalizing spaced with
  | nil => exact singleSpaced_succ s depth spaced
  | cons c u ih =>
    have hc := hu c List.mem_cons_self
    rw [List.cons_append, singleSpaced, if_neg hc.1, if_neg hc.2, if_neg (by simp)]
    exact ih false fun b hb => hu b (List.mem_cons_of_mem _ hb)

theorem singleSpaced_word {w : List Char} (hw : ∀ c ∈ w, isWordChar c = true) (hne : w ≠ []) :
    singleSpaced depth spaced (w ++ s) = singleSpaced depth false s := by
  induction w generalizing spaced with
  | nil => exact absurd rfl hne
  | cons c w ih =>
    have hc := ne_of_isWordChar (hw c List.mem_cons_self)
    rw [List.cons_append, singleSpaced, if_neg hc.2.1, if_neg hc.2.2, if_neg (by simp [hc.1])]
    by_cases hnil : w = []
    · rw [hnil]
      rfl
    · exact ih false (fun b hb => hw b (List.mem_cons_of_mem _ hb)) hnil

theorem singleSpaced_opener {w : List Char} (hw : ∀ c ∈ w, isWordChar c = true) :
    singleSpaced depth spaced (w ++ '(' :: s) = singleSpaced (depth + 1) false s := by
  by_cases hnil : w = []
  · rw [hnil, List.nil_append, singleSpaced, if_pos rfl]
  · rw [singleSpaced_word _ _ _ hw hnil, singleSpaced, if_pos rfl]

theorem singleSpaced_closer :
    singleSpaced (depth + 1) spaced (')' :: s) = singleSpaced depth false s := by
  rw [singleSpaced, if_neg (by decide), if_pos rfl]
  rfl

theorem singleSpaced_url {w u : List Char} (hw : ∀ c ∈ w, isWordChar c = true)
    (hu : ∀ c ∈ u, c ≠ '(' ∧ c ≠ ')') :
    singleSpaced depth spaced (w ++ '(' :: (u ++ ')' :: s)) = singleSpaced depth false s := by
  rw [singleSpaced_opener _ _ _ hw, singleSpaced_inside _ _ _ hu, singleSpaced_closer]

end SingleSpaced

/-! ## Calm lexemes in nested order -/

theorem Css.Lexeme.Calm.source_of_closer? {x : Lexeme} {t : Token} (hx : x.Calm)
    (h : x.token.closer? = some t) :
    t = .parenClose ∧ ∃ w, (∀ c ∈ w, isWordChar c = true) ∧ x.source = w ++ ['('] := by
  cases hx with
  | space => cases h
  | word hword =>
    rw [Token.closer?_of_isInline hword.inline] at h
    cases h
  | @opener t' w ht hw =>
    rw [ht] at h
    exact ⟨(Option.some.inj h).symm, w, hw, rfl⟩
  | closer => cases h
  | url ht =>
    rw [Token.closer?_of_isInline ht] at h
    cases h

theorem Css.Lexeme.Calm.source_of_parenClose {x : Lexeme} (hx : x.Calm)
    (h : x.token = .parenClose) : x.source = [')'] := by
  obtain ⟨token, source⟩ := x
  cases h
  cases hx with
  | word hword => cases hword.inline
  | opener ht => cases ht
  | closer => rfl
  | url ht => cases ht

/-- Inside parentheses, calm lexemes that nest come back to where they began. -/
theorem singleSpaced_nested {xs : List Lexeme} {ts : List TokenTree} (h : Nested xs ts)
    (hcalm : ∀ x ∈ xs, x.Calm) (s : List Char) (depth : Nat) (spaced : Bool) :
    singleSpaced (depth + 1) spaced (xs.flatMap Lexeme.source ++ s) =
      singleSpaced (depth + 1) false s := by
  induction h generalizing depth spaced s with
  | nil => exact singleSpaced_succ s depth spaced
  | @leaf x xs ts hopen hclose _ ih =>
    have hx := hcalm x List.mem_cons_self
    have hxs := fun y hy => hcalm y (List.mem_cons_of_mem _ hy)
    rw [List.flatMap_cons, List.append_assoc]
    cases hx with
    | space _ hw => rw [singleSpaced_inside _ _ _ fun c hc => ne_of_isSpace (hw c hc), ih hxs]
    | word hword =>
      rw [singleSpaced_inside _ _ _ fun c hc => (ne_of_isWordChar (hword.chars c hc)).2, ih hxs]
    | opener ht =>
      rw [ht] at hopen
      cases hopen
    | closer => cases hclose
    | url _ hw hu =>
      simp only [List.append_assoc, List.cons_append, List.nil_append]
      rw [singleSpaced_url _ _ _ hw hu, ih hxs]
  | @group x ys y xs us ts hgroup _ _ ihin ih =>
    have hys : ∀ z ∈ ys, z.Calm := fun z hz => hcalm z (by simp [hz])
    have hxs : ∀ z ∈ xs, z.Calm := fun z hz => hcalm z (by simp [hz])
    obtain ⟨hy, w, hw, hx⟩ := (hcalm x List.mem_cons_self).source_of_closer? hgroup
    have hy' := (hcalm y (by simp)).source_of_parenClose hy
    -- One parenthesis deeper, the lexemes inside come back to that depth.
    simp only [List.flatMap_cons, List.flatMap_append, List.append_assoc, hx, hy',
      List.cons_append, List.nil_append]
    rw [singleSpaced_opener _ _ _ hw, ihin hys, singleSpaced_closer, ih hxs]

/-- No tree of calm lexemes ends a node. -/
theorem endsNode_of_nested {xs : List Lexeme} {ts : List TokenTree} (h : Nested xs ts)
    (hcalm : ∀ x ∈ xs, x.Calm) : ∀ t ∈ ts, t.endsNode = false := by
  induction h with
  | nil =>
    intro t ht
    cases ht
  | @leaf x xs ts hopen hclose _ ih =>
    intro t ht
    rcases List.mem_cons.1 ht with rfl | ht
    · have hx := hcalm x List.mem_cons_self
      rw [TokenTree.endsNode, decide_eq_false_iff_not]
      intro hsemi
      obtain ⟨token, source⟩ := x
      cases hsemi
      cases hx with
      | word hword => cases hword.inline
      | opener hparen => cases hparen
      | url hinline => cases hinline
    · exact ih (fun y hy => hcalm y (List.mem_cons_of_mem _ hy)) t ht
  | @group x ys y xs us ts hgroup _ _ _ ih =>
    intro t ht
    rcases List.mem_cons.1 ht with rfl | ht
    · obtain ⟨hy, -⟩ := (hcalm x List.mem_cons_self).source_of_closer? hgroup
      rw [TokenTree.endsNode, decide_eq_false_iff_not]
      intro hcurly
      rw [hcurly, hy] at hgroup
      cases hgroup
    · exact ih (fun z hz => hcalm z (by simp [hz])) t ht

/-! ## Parameters -/

theorem Css.Token.isSkipped_of_isInline {t : Token} (h : t.isInline = true) :
    t.isSkipped = false := by
  cases t <;> first | rfl | cases h

theorem Css.Token.isSkipped_of_closer? {t u : Token} (h : t.closer? = some u) :
    t.isSkipped = false := by
  cases t <;> first | rfl | cases h

/-- A tree that is no comment and no white space is kept as it is. -/
theorem paramsFrom_significant {t : TokenTree} (ht : t.token.isSkipped = false) (spaced : Bool)
    (ts : List TokenTree) :
    paramsFrom spaced (t :: ts) = t.source ++ paramsFrom (t.source.getLast? = some ' ') ts := by
  rw [paramsFrom]
  split
  · rename_i h
    rw [h] at ht
    cases ht
  · rename_i h
    rw [h] at ht
    cases ht
  · rfl

theorem paramsFrom_cons {t : TokenTree} (ht : t.token.isSkipped = false)
    (hlast : t.source.getLast? ≠ some ' ') (spaced : Bool) (ts : List TokenTree) :
    paramsFrom spaced (t :: ts) = t.source ++ paramsFrom false ts := by
  rw [paramsFrom_significant ht, decide_eq_false hlast]

theorem getLast?_append_paren (s : List Char) : (s ++ [')']).getLast? ≠ some ' ' := by
  rw [List.getLast?_concat]
  decide

/-- Calm lexemes that nest and have single spaces outside parentheses are kept as they are. -/
theorem paramsFrom_of_nested {xs : List Lexeme} {ts : List TokenTree} (h : Nested xs ts)
    (hcalm : ∀ x ∈ xs, x.Calm ∧ x.source ≠ []) (spaced : Bool)
    (hspaced : singleSpaced 0 spaced (xs.flatMap Lexeme.source) = true) :
    paramsFrom spaced ts = xs.flatMap Lexeme.source := by
  induction h generalizing spaced with
  | nil => rfl
  | @leaf x xs ts hopen hclose _ ih =>
    obtain ⟨hx, hne⟩ := hcalm x List.mem_cons_self
    have hxs := fun y hy => hcalm y (List.mem_cons_of_mem x hy)
    rw [List.flatMap_cons] at hspaced ⊢
    cases hx with
    | @space t w _ hw =>
      -- The white space is one space, and there is none in front of it.
      obtain ⟨c, w, rfl⟩ := List.exists_cons_of_ne_nil hne
      have hc : isSpace c = true := hw c List.mem_cons_self
      rw [List.cons_append, singleSpaced, if_neg (ne_of_isSpace hc).1, if_neg (ne_of_isSpace hc).2,
        if_pos ⟨rfl, hc⟩] at hspaced
      simp only [Bool.and_eq_true, decide_eq_true_eq, Bool.not_eq_true'] at hspaced
      obtain ⟨⟨rfl, rfl⟩, hrest⟩ := hspaced
      rcases w with _ | ⟨b, w⟩
      · rw [List.nil_append] at hrest
        rw [← ih hxs _ hrest]
        rfl
      · have hb : isSpace b = true := hw b (by simp)
        rw [List.cons_append, singleSpaced, if_neg (ne_of_isSpace hb).1,
          if_neg (ne_of_isSpace hb).2, if_pos ⟨rfl, hb⟩] at hrest
        simp at hrest
    | word hword =>
      rw [singleSpaced_word _ _ _ hword.chars hne] at hspaced
      have hlast : x.source.getLast? ≠ some ' ' := by
        intro hlast
        have hspace := hword.chars _ (List.mem_of_getLast? hlast)
        revert hspace
        decide
      rw [paramsFrom_cons (t := .leaf x) (Token.isSkipped_of_isInline hword.inline) hlast,
        ih hxs _ hspaced]
      rfl
    | opener ht =>
      rw [ht] at hopen
      cases hopen
    | closer => cases hclose
    | @url t w u ht hw hu =>
      simp only [List.append_assoc, List.cons_append, List.nil_append] at hspaced
      rw [singleSpaced_url _ _ _ hw hu] at hspaced
      have hlast := getLast?_append_paren (w ++ '(' :: u)
      rw [List.append_assoc, List.cons_append] at hlast
      rw [paramsFrom_cons (t := .leaf ⟨t, _⟩) (Token.isSkipped_of_isInline ht) hlast,
        ih hxs _ hspaced]
      rfl
  | @group x ys y xs us ts hgroup hin _ _ ih =>
    have hys : ∀ z ∈ ys, z.Calm := fun z hz => (hcalm z (by simp [hz])).1
    have hxs : ∀ z ∈ xs, z.Calm ∧ z.source ≠ [] := fun z hz => hcalm z (by simp [hz])
    obtain ⟨hy, w, hw, hx⟩ := (hcalm x List.mem_cons_self).1.source_of_closer? hgroup
    have hy' := (hcalm y (by simp)).1.source_of_parenClose hy
    simp only [List.flatMap_cons, List.flatMap_append, List.append_assoc, hx, hy',
      List.cons_append, List.nil_append] at hspaced ⊢
    -- Whatever white space is in the group, it is taken with its text.
    rw [singleSpaced_opener _ _ _ hw, singleSpaced_nested hin hys, singleSpaced_closer] at hspaced
    have hlast := getLast?_append_paren (x.source ++ sourceAll us)
    rw [List.append_assoc] at hlast
    rw [paramsFrom_cons (t := .group x us [')']) (Token.isSkipped_of_closer? hgroup) hlast,
      ih hxs _ hspaced, TokenTree.source, hx, hin.sourceAll_eq]
    simp

end MailCss
