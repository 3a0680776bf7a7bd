import Mathlib
import MailCss.Proofs.Css.Nesting
import MailCss.Proofs.Css.Stop

/-!
# Calm texts

A calm text has no strings, escapes, comments, semicolons and brackets other than parentheses. If
its parentheses match and no broken url has one in it, its lexemes nest, and they are the same
whatever stands behind the text, except that white space goes on in white space.

Main statements: `scan_calm` (one lexeme) and `lexemes_calm` (all of them).
-/

namespace MailCss.Css

/-! ## Calm texts -/

/-- The characters that open or close something other than a parenthesis, or keep a character
from doing so. -/
def isStructural (c : Char) : Bool :=
  c = '\x7b' || c = '\x7d' || c = '[' || c = ']' || c = ';' || c = '"' || c = '\'' || c = '\\'

/-- A text without strings, escapes, comments, semicolons and brackets other than parentheses. -/
structure Calm (s : List Char) : Prop where
  chars : ∀ c ∈ s, isStructural c = false
  comment : ¬ ['/', '*'] <:+: s

instance (s : List Char) : Decidable (Calm s) :=
  decidable_of_iff (s.all (!isStructural ·) = true ∧ ¬ ['/', '*'] <:+: s)
    ⟨fun h => ⟨by simpa using h.1, h.2⟩, fun h => ⟨by simpa using h.chars, h.comment⟩⟩

/-- Whether the parentheses of a text match, where `d` of them are open in front of it. -/
def closesAll : Nat → List Char → Bool
  | d, [] => d == 0
  | d, c :: r =>
    if c = '(' then closesAll (d + 1) r
    else if c = ')' then 0 < d && closesAll (d - 1) r
    else closesAll d r

/-- The lexemes of calm texts. -/
inductive Lexeme.Calm : Lexeme → Prop where
  | space {t w} : w ≠ [] → (∀ c ∈ w, isSpace c = true) → Calm ⟨.whitespace t, w⟩
  | word {x} : x.IsWord → Calm x
  | opener {t w} : t.closer? = some .parenClose → (∀ c ∈ w, isWordChar c = true) →
      Calm ⟨t, w ++ ['(']⟩
  | closer : Calm ⟨.parenClose, [')']⟩
  | url {t w u} : t.isInline = true → (∀ c ∈ w, isWordChar c = true) →
      (∀ c ∈ u, c ≠ '(' ∧ c ≠ ')') → Calm ⟨t, w ++ '(' :: (u ++ [')'])⟩

/-- What a calm text holds it holds behind its first part too. -/
theorem Calm.of_append {s t : List Char} (h : Calm (s ++ t)) : Calm t where
  chars c hc := h.chars c (List.mem_append_right s hc)
  comment hopen := h.comment (hopen.trans (List.suffix_append s t).isInfix)

theorem Calm.not_mem {s : List Char} {c : Char} (h : Calm s) (hc : isStructural c = true) :
    c ∉ s := by
  intro hmem
  rw [h.chars c hmem] at hc
  cases hc

theorem ne_of_isWordChar {c : Char} (h : isWordChar c = true) :
    isSpace c = false ∧ c ≠ '(' ∧ c ≠ ')' := by
  simpa [isWordChar, and_assoc] using h

theorem closesAll_append {w : List Char} (hw : ∀ c ∈ w, c ≠ '(' ∧ c ≠ ')') (d : Nat)
    (s : List Char) : closesAll d (w ++ s) = closesAll d s := by
  induction w with
  | nil => rfl
  | cons c w ih =>
    have hc := hw c List.mem_cons_self
    rw [List.cons_append, closesAll, if_neg hc.1, if_neg hc.2]
    exact ih fun b hb => hw b (List.mem_cons_of_mem _ hb)

/-- A parenthesis that is open is closed. -/
theorem exists_close_of_closesAll {d : Nat} {s : List Char} (h : closesAll (d + 1) s = true) :
    ∃ u t, s = u ++ ')' :: t ∧ ')' ∉ u := by
  induction s generalizing d with
  | nil => cases h
  | cons c s ih =>
    rw [closesAll] at h
    by_cases hclose : c = ')'
    · subst hclose
      exact ⟨[], s, rfl, by simp⟩
    · have hs : ∃ d', closesAll (d' + 1) s = true := by
        split at h
        · exact ⟨_, h⟩
        · exact ⟨_, h⟩
      obtain ⟨d', hd⟩ := hs
      obtain ⟨u, t, rfl, hu⟩ := ih hd
      refine ⟨c :: u, t, rfl, ?_⟩
      rw [List.mem_cons, not_or]
      exact ⟨fun h => hclose h.symm, hu⟩

theorem single_isInline {c : Char} (hc : isStructural c = false) (hopen : c ≠ '(')
    (hclose : c ≠ ')') : (single c).isInline = true := by
  simp only [isStructural, Bool.or_eq_false_iff, decide_eq_false_iff_not] at hc
  obtain ⟨⟨⟨⟨⟨⟨⟨hcurly, hcurly'⟩, hsquare⟩, hsquare'⟩, hsemi⟩, -⟩, -⟩, -⟩ := hc
  unfold single
  rw [if_neg hsemi, if_neg hopen, if_neg hsquare, if_neg hcurly, if_neg hclose, if_neg hsquare',
    if_neg hcurly']
  split
  · rfl
  · split <;> rfl

theorem scanPunctuation_calm {c : Char} {r : List Char} (hc : isStructural c = false)
    (hspace : isSpace c = false) : (scanPunctuation c r).Calm := by
  -- Only parentheses are more than a word here.
  by_cases hopen : c = '('
  · subst hopen
    exact .opener (t := .parenOpen) (w := []) rfl (by simp)
  by_cases hclose : c = ')'
  · subst hclose
    exact .closer
  apply Lexeme.Calm.word
  have hword : isWordChar c = true := by simp [isWordChar, hspace, hopen, hclose]
  rcases scanPunctuation_cases c r with ⟨t, ht, hread⟩ | hread <;> rw [hread]
  · have hmatchers : ∀ t ∈ matchers, t.isInline = true := by decide
    refine ⟨?_, hmatchers t ht⟩
    intro b hb
    simp only [List.mem_cons, List.not_mem_nil, or_false] at hb
    rcases hb with rfl | rfl
    · exact hword
    · decide
  · exact ⟨by simpa using hword, single_isInline hc hopen hclose⟩

/-- In a calm text whose parentheses match, an identifier or a function or url is read the same
whatever follows, as long as no broken url has a parenthesis in it. -/
theorem scanIdentLike_calm {d : Nat} {s : List Char} (h : Calm s) (hclose : closesAll d s = true)
    (hflat : (scanIdentLike s).source.count '(' ≤ 1) :
    (scanIdentLike s).Calm ∧ ∀ r, Stops r → scanIdentLike (s ++ r) = scanIdentLike s := by
  have hslash : '\\' ∉ s := h.not_mem rfl
  have hname := isWordChar_spanName hslash
  have happend := spanName_append s
  have hstop (r : List Char) (hr : Stops r) := spanName_stop hr s hslash
  by_cases hparen : (spanName s).2.head? = some '('
  · obtain ⟨t, ht⟩ := List.head?_eq_some_iff.1 hparen
    have ht' (r : List Char) (hr : Stops r) : (spanName (s ++ r)).2 = '(' :: (t ++ r) := by
      rw [hstop r hr, ht]
      rfl
    cases hurl : isUrlName (unescape (spanName s).1) with
    | false =>
      rw [scanIdentLike_function ht hurl]
      refine ⟨.opener rfl hname, ?_⟩
      intro r hr
      rw [scanIdentLike_function (ht' r hr) (by rw [hstop r hr]; exact hurl), hstop r hr]
    | true =>
      rw [ht] at happend
      have hopen : closesAll (d + 1) t = true := by
        rw [← happend, closesAll_append fun c hc => (ne_of_isWordChar (hname c hc)).2] at hclose
        exact hclose
      -- The parentheses match, so the url is closed inside the text.
      obtain ⟨u, v, rfl, hu⟩ := exists_close_of_closesAll hopen
      have hquote : ∀ c ∈ u, c ≠ '"' ∧ c ≠ '\'' := by
        intro c hc
        have hchar := h.chars c (by rw [← happend]; simp [hc])
        constructor <;> rintro rfl <;> revert hchar <;> decide
      obtain ⟨x, hx, hscan⟩ := scanIdentLike_closed hslash ht hurl hu hquote
      have hself := hscan [] (by rintro c ⟨⟩)
      rw [List.append_nil] at hself
      rw [hself] at hflat ⊢
      refine ⟨.url hx hname ?_, hscan⟩
      intro c hc
      constructor
      · rintro rfl
        have hcount : 0 < u.count '(' := List.count_pos_iff.2 hc
        simp only [List.count_append, List.count_cons_self] at hflat
        omega
      · rintro rfl
        exact hu hc
  · rw [scanIdentLike_ident hparen]
    refine ⟨.word ⟨hname, rfl⟩, ?_⟩
    intro r hr
    rw [scanIdentLike_ident, hstop r hr]
    rw [hstop r hr]
    rcases hrest : (spanName s).2 with _ | ⟨b, t⟩
    · intro hhead
      rcases hr '(' hhead with hc | hc <;> cases hc
    · rw [hrest] at hparen
      exact hparen

/-! ## One lexeme of a calm text -/

/-- The text `r` may follow the text `s`: no lexeme goes on from one into the other. -/
def Seam (s r : List Char) : Prop :=
  ∀ c ∈ r.head?, c = ';' ∨ c = ' ' ∧ ∀ b ∈ s.getLast?, isSpace b = false

theorem Seam.stops {s r : List Char} (h : Seam s r) : Stops r := by
  intro c hc
  rcases h c hc with rfl | ⟨rfl, -⟩
  · exact .inr rfl
  · exact .inl rfl

/-- White space ends at a seam. -/
theorem Seam.takeWhile_isSpace {a : Char} {s r : List Char} (h : Seam (a :: s) r) :
    (a :: (s ++ r)).takeWhile isSpace = (a :: s).takeWhile isSpace := by
  rw [← List.cons_append, List.takeWhile_append]
  -- Only if the text is white space up to its end does it matter what follows.
  split
  · rename_i hlength
    have hself : (a :: s).takeWhile isSpace = a :: s :=
      (List.takeWhile_prefix _).eq_of_length hlength
    have hall := List.takeWhile_eq_self_iff.1 hself
    have hhead : ∀ c ∈ r.head?, isSpace c = false := by
      intro c hc
      rcases h c hc with rfl | ⟨-, hlast⟩
      · rfl
      · have hfalse := hlast _ (List.getLast?_eq_some_getLast (List.cons_ne_nil a s))
        rw [hall _ (List.getLast_mem _)] at hfalse
        cases hfalse
    rcases r with _ | ⟨c, r⟩
    · rw [List.takeWhile_nil, List.append_nil, hself]
    · rw [List.takeWhile_cons_of_neg (by rw [hhead c rfl]; simp), List.append_nil, hself]
  · rfl

/-- In a calm text whose parentheses match, the lexeme at the front is read the same whatever
follows the text. -/
theorem scan_calm {d : Nat} {a : Char} {s : List Char} (h : Calm (a :: s))
    (hclose : closesAll d (a :: s) = true) (hflat : (scan a s).source.count '(' ≤ 1) :
    (scan a s).Calm ∧ ∀ r, Seam (a :: s) r → scan a (s ++ r) = scan a s := by
  by_cases hspace : isSpace a = true
  · rw [scan_space hspace]
    refine ⟨.space ?_ fun c hc => List.mem_takeWhile_imp hc, ?_⟩
    · simp [hspace]
    · intro r hr
      rw [scan_space hspace, hr.takeWhile_isSpace]
  have hslash : '\\' ∉ a :: s := h.not_mem rfl
  have hslash' : '\\' ∉ s := fun hmem => hslash (List.mem_cons_of_mem _ hmem)
  have ha := h.chars a List.mem_cons_self
  have hquote : ¬ (a = '"' ∨ a = '\'') := by
    rintro (rfl | rfl) <;> revert ha <;> decide
  have hcomment : ¬ (a = '/' ∧ s.head? = some '*') := by
    rintro ⟨rfl, hhead⟩
    obtain ⟨t, rfl⟩ := List.head?_eq_some_iff.1 hhead
    exact h.comment ⟨[], t, rfl⟩
  have hscan (r : List Char) (hr : Stops r) := scan_halt (hr.halts.halted (a :: s))
  simp only [if_neg hspace, if_neg hcomment, if_neg hquote] at hscan
  have hself := hscan [] (by rintro c ⟨⟩)
  rw [List.append_nil] at hself
  rw [hself] at hflat ⊢
  constructor
  · split_ifs at hflat ⊢
    · exact .word (scanHash_isWord hslash')
    · exact .word (scanAt_isWord hslash')
    · exact .word (scanNumeric_isWord hslash)
    · exact .word (isWord_of_all rfl rfl)
    · exact .word (isWord_of_all rfl rfl)
    · exact (scanIdentLike_calm h hclose hflat).1
    · exact scanPunctuation_calm ha (by simpa using hspace)
  · intro r hr
    rw [hscan r hr.stops]
    split_ifs at hflat ⊢
    · exact scanHash_stop hr.stops s hslash'
    · exact scanAt_stop hr.stops s hslash'
    · exact scanNumeric_stop hr.stops (a :: s) hslash
    · rfl
    · rfl
    · exact (scanIdentLike_calm h hclose hflat).2 r hr.stops
    · rfl

/-! ## The lexemes of a calm text -/

theorem Token.closer?_of_isInline {t : Token} (h : t.isInline = true) : t.closer? = none := by
  cases t <;> first | rfl | cases h

theorem Token.isCloser_of_isInline {t : Token} (h : t.isInline = true) : t.isCloser = false := by
  cases t <;> first | rfl | cases h

theorem ne_of_isSpace {c : Char} (h : isSpace c = true) : c ≠ '(' ∧ c ≠ ')' := by
  constructor
  · rintro rfl
    cases h
  · rintro rfl
    cases h

/-- Behind a calm lexeme, the brackets match if the parentheses do. -/
theorem Lexeme.Calm.brackets_of_closesAll {x : Lexeme} (hx : x.Calm) {d : Nat} {t : List Char}
    (h : closesAll d (x.source ++ t) = true) :
    ∃ d', closesAll d' t = true ∧ ∀ xs, brackets (List.replicate d' .parenClose) xs = true →
      brackets (List.replicate d .parenClose) (x :: xs) = true := by
  cases hx with
  | space _ hw =>
    rw [closesAll_append fun c hc => ne_of_isSpace (hw c hc)] at h
    refine ⟨d, h, ?_⟩
    intro xs hxs
    simpa [brackets, Token.closer?, Token.isCloser] using hxs
  | word hw =>
    rw [closesAll_append fun c hc => (ne_of_isWordChar (hw.chars c hc)).2] at h
    refine ⟨d, h, ?_⟩
    intro xs hxs
    simpa [brackets, Token.closer?_of_isInline hw.inline, Token.isCloser_of_isInline hw.inline]
      using hxs
  | opener ht hw =>
    simp only [List.append_assoc, List.cons_append, List.nil_append] at h
    rw [closesAll_append fun c hc => (ne_of_isWordChar (hw c hc)).2] at h
    refine ⟨d + 1, h, ?_⟩
    intro xs hxs
    unfold brackets
    simpa [ht, List.replicate_succ] using hxs
  | closer =>
    rw [List.singleton_append, closesAll] at h
    cases d with
    | zero => cases h
    | succ d =>
      refine ⟨d, by simpa using h, ?_⟩
      intro xs hxs
      simpa [brackets, Token.closer?, Token.isCloser, List.replicate_succ] using hxs
  | @url t' w u ht hw hu =>
    have hclose : closesAll (d + 1) (u ++ ')' :: t) = true := by
      simp only [List.append_assoc, List.cons_append, List.nil_append] at h
      rwa [closesAll_append fun c hc => (ne_of_isWordChar (hw c hc)).2] at h
    rw [closesAll_append hu] at hclose
    refine ⟨d, by simpa [closesAll] using hclose, ?_⟩
    intro xs hxs
    simpa [brackets, Token.closer?_of_isInline ht, Token.isCloser_of_isInline ht] using hxs

theorem Seam.of_append {s t r : List Char} (h : Seam (s ++ t) r) : Seam t r := by
  intro c hc
  rcases h c hc with hsemi | ⟨hspace, hlast⟩
  · exact .inl hsemi
  · refine .inr ⟨hspace, ?_⟩
    intro b hb
    apply hlast
    simp [List.getLast?_append, Option.mem_def.1 hb]

/-- A calm text whose parentheses match, and in which no broken url has a parenthesis, is read the
same whatever follows. -/
theorem lexemes_calm {d : Nat} {s : List Char} (h : Calm s) (hclose : closesAll d s = true)
    (hflat : ∀ x ∈ lexemes s, x.source.count '(' ≤ 1) :
    (∀ x ∈ lexemes s, x.Calm) ∧ brackets (List.replicate d .parenClose) (lexemes s) = true ∧
      ∀ r, Seam s r → lexemes (s ++ r) = lexemes s ++ lexemes r := by
  match s with
  | [] =>
    cases d with
    | zero => exact ⟨by rintro x ⟨⟩, rfl, fun r _ => rfl⟩
    | succ d => cases hclose
  | a :: s =>
    obtain ⟨t, ht, hlen, hcons⟩ := exists_lexemes_cons a s
    rw [hcons] at hflat
    obtain ⟨hx, hstop⟩ := scan_calm h hclose (hflat _ List.mem_cons_self)
    -- What the first lexeme leaves is shorter and calm, with `d'` parentheses open in front of it.
    rw [ht] at h hclose
    obtain ⟨d', hclose', hbrackets⟩ := hx.brackets_of_closesAll hclose
    obtain ⟨hcalm, hmatch, hrest⟩ := lexemes_calm h.of_append hclose' fun y hy =>
      hflat y (List.mem_cons_of_mem _ hy)
    rw [hcons]
    refine ⟨?_, hbrackets _ hmatch, ?_⟩
    · intro y hy
      rcases List.mem_cons.1 hy with rfl | hy
      · exact hx
      · exact hcalm y hy
    · intro r hr
      rw [lexemes_cons_append ht (hstop r hr), List.cons_append]
      rcases t with _ | ⟨b, t⟩
      · rfl
      · rw [hrest r (Seam.of_append (by rwa [← ht]))]
termination_by s.length
decreasing_by exact hlen

end MailCss.Css
