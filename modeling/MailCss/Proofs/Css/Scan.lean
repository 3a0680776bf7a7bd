import MailCss.Css.Lossless

/-!
# Reading one lexeme

Which lexeme stands at the front of a text, case by case (`scan_elim`), which tokens each case can
give (`scanString_cases`, `scanIdentLike_cases` and so on), and which tokens are read from a single
mark, a bracket or a semicolon (`scan_source_of_mark?`).
-/

namespace MailCss.Css

theorem isSpace_cases {c : Char} (h : isSpace c = true) :
    c = ' ' ∨ c = '\t' ∨ c = '\n' ∨ c = '\r' ∨ c = '\x0c' := by
  simpa [isSpace, or_assoc] using h

/-- The lexeme at the front of a text, by what the text begins with. -/
theorem scan_elim {p : Lexeme → Prop} {c : Char} {r : List Char}
    (space : isSpace c = true → p ⟨.whitespace (String.ofList ((c :: r).takeWhile isSpace)),
      (c :: r).takeWhile isSpace⟩)
    (comment : c = '/' → r.head? = some '*' → p (scanComment (r.drop 1)))
    (string : c = '"' ∨ c = '\'' → p (scanString c r))
    (hash : c = '#' → p (scanHash r))
    (at_sign : c = '@' → p (scanAt r))
    (numeric : startsNumber (c :: r) = true → p (scanNumeric (c :: r)))
    (commentClose : (c :: r).take 3 = ['-', '-', '>'] → p ⟨.commentClose, ['-', '-', '>']⟩)
    (commentOpen : (c :: r).take 4 = ['<', '!', '-', '-'] →
      p ⟨.commentOpen, ['<', '!', '-', '-']⟩)
    (identLike : startsIdent (c :: r) = true → p (scanIdentLike (c :: r)))
    (punctuation : p (scanPunctuation c r)) : p (scan c r) := by
  simp only [scan]
  split
  · exact space ‹_›
  split
  · rename_i h
    exact comment h.1 h.2
  split
  · exact string ‹_›
  split
  · exact hash ‹_›
  split
  · exact at_sign ‹_›
  split
  · exact numeric ‹_›
  split
  · exact commentClose ‹_›
  split
  · exact commentOpen ‹_›
  split
  · exact identLike ‹_›
  · exact punctuation

/-! ## What each scanner gives -/

theorem scanString_cases (q : Char) (r : List Char) :
    (∃ s w, scanString q r = ⟨.string s, w⟩) ∨ ∃ s w, scanString q r = ⟨.badString s, w⟩ := by
  simp only [scanString]
  split
  · exact .inl ⟨_, _, rfl⟩
  · split
    · exact .inl ⟨_, _, rfl⟩
    · exact .inr ⟨_, _, rfl⟩

theorem scanNumeric_cases (s : List Char) :
    (∃ n w, scanNumeric s = ⟨.number n, w⟩) ∨ (∃ n w, scanNumeric s = ⟨.percentage n, w⟩) ∨
      ∃ n u w, scanNumeric s = ⟨.dimension n u, w⟩ := by
  simp only [scanNumeric]
  split
  · exact .inr (.inl ⟨_, _, rfl⟩)
  · split
    · exact .inr (.inr ⟨_, _, _, rfl⟩)
    · exact .inl ⟨_, _, rfl⟩

theorem scanHash_cases (r : List Char) :
    (∃ s w, scanHash r = ⟨.idHash s, '#' :: w⟩) ∨ (∃ s w, scanHash r = ⟨.hash s, '#' :: w⟩) ∨
      scanHash r = ⟨.delim '#', ['#']⟩ := by
  simp only [scanHash]
  split
  · exact .inl ⟨_, _, rfl⟩
  · split
    · exact .inr (.inl ⟨_, _, rfl⟩)
    · exact .inr (.inr rfl)

theorem scanAt_cases (r : List Char) :
    (∃ s w, scanAt r = ⟨.atKeyword s, '@' :: w⟩) ∨ scanAt r = ⟨.delim '@', ['@']⟩ := by
  simp only [scanAt]
  split
  · exact .inl ⟨_, _, rfl⟩
  · exact .inr rfl

theorem scanUrl_cases (opener r : List Char) :
    (∃ s w, scanUrl opener r = ⟨.url s, w⟩) ∨ ∃ s w, scanUrl opener r = ⟨.badUrl s, w⟩ := by
  simp only [scanUrl]
  split
  · exact .inl ⟨_, _, rfl⟩
  · split
    · exact .inl ⟨_, _, rfl⟩
    · exact .inr ⟨_, _, rfl⟩

/-- A name is an identifier, or a function in front of a parenthesis, unless it opens a url. -/
theorem scanIdentLike_cases (s : List Char) :
    scanIdentLike s = ⟨.ident (String.ofList (unescape (spanName s).1)), (spanName s).1⟩ ∨
      scanIdentLike s =
        ⟨.function (String.ofList (unescape (spanName s).1)), (spanName s).1 ++ ['(']⟩ ∨
      (∃ u w, scanIdentLike s = ⟨.url u, w⟩) ∨ ∃ u w, scanIdentLike s = ⟨.badUrl u, w⟩ := by
  simp only [scanIdentLike]
  split
  · split
    · exact .inr (.inl rfl)
    · exact .inr (.inl rfl)
    · exact .inr (.inl rfl)
    · exact .inr (.inr (scanUrl_cases _ _))
  · exact .inl rfl

/-- The tokens of two characters that end with an equals sign. -/
def matchers : List Token :=
  [.includeMatch, .dashMatch, .prefixMatch, .suffixMatch, .substringMatch]

theorem mem_matchers {c : Char} {t : Token} (h : matcher? c = some t) : t ∈ matchers := by
  unfold matcher? at h
  repeat' split at h
  all_goals
    cases h
    try decide

theorem scanPunctuation_cases (c : Char) (r : List Char) :
    (∃ t ∈ matchers, scanPunctuation c r = ⟨t, [c, '=']⟩) ∨
      scanPunctuation c r = ⟨single c, [c]⟩ := by
  unfold scanPunctuation
  split
  · rename_i t _ ht
    exact .inl ⟨t, mem_matchers ht, rfl⟩
  · exact .inr rfl

/-! ## The first lexeme -/

/-- If the first lexeme of a text is the same whatever follows, so is what it leaves. -/
theorem lexemes_cons_append {a : Char} {s t r : List Char} (h : a :: s = (scan a s).source ++ t)
    (hscan : scan a (s ++ r) = scan a s) :
    lexemes (a :: s ++ r) = scan a s :: lexemes (t ++ r) := by
  have hread : a :: (s ++ r) = (scan a s).source ++ (t ++ r) := by
    rw [← List.append_assoc, ← h, List.cons_append]
  exact lexemes_eq_cons hscan hread

/-- The mark that a token stands for: a bracket or a semicolon. -/
def Token.mark? : Token → Option Char
  | .semicolon => some ';'
  | .parenOpen => some '('
  | .squareOpen => some '['
  | .curlyOpen => some '\x7b'
  | .parenClose => some ')'
  | .squareClose => some ']'
  | .curlyClose => some '\x7d'
  | _ => none

/-- A lexeme that is read at some place of some text. -/
def Lexeme.IsRead (x : Lexeme) : Prop := ∃ c r, x = scan c r

theorem Lexeme.IsRead.source_ne_nil {x : Lexeme} (h : x.IsRead) : x.source ≠ [] := by
  obtain ⟨c, r, rfl⟩ := h
  exact scan_source_ne_nil c r

theorem exists_suffix_of_mem_lexemesAfter {skip : Nat} {s : List Char} {x : Lexeme}
    (h : x ∈ lexemesAfter skip s) : ∃ c r, c :: r <:+ s ∧ x = scan c r := by
  induction s generalizing skip with
  | nil => cases skip <;> cases h
  | cons c r ih =>
    have hback {skip : Nat} (h : x ∈ lexemesAfter skip r) :
        ∃ d t, d :: t <:+ c :: r ∧ x = scan d t := by
      obtain ⟨d, t, hsuffix, hx⟩ := ih h
      exact ⟨d, t, List.IsSuffix.trans hsuffix (List.suffix_cons c r), hx⟩
    cases skip with
    | succ skip => exact hback h
    | zero =>
      rcases List.mem_cons.1 h with rfl | h
      · exact ⟨c, r, List.suffix_refl _, rfl⟩
      · exact hback h

/-- A lexeme of a text is read at the front of an end of it. -/
theorem exists_suffix_of_mem_lexemes {s : List Char} {x : Lexeme} (h : x ∈ lexemes s) :
    ∃ c r, c :: r <:+ s ∧ x = scan c r :=
  exists_suffix_of_mem_lexemesAfter h

/-- The lexemes of a text are read from it. -/
theorem isRead_of_mem_lexemes {s : List Char} {x : Lexeme} (h : x ∈ lexemes s) : x.IsRead := by
  obtain ⟨c, r, -, hx⟩ := exists_suffix_of_mem_lexemes h
  exact ⟨c, r, hx⟩

/-! ## Solid tokens -/

/-- Whether a token is solid: no mark, nothing that can stand between nodes, and no at-keyword. -/
def Token.isSolid : Token → Bool
  | .whitespace _ | .comment _ | .commentOpen | .commentClose | .atKeyword _ => false
  | t => t.mark? = none

theorem Token.mark?_of_isSolid {t : Token} (h : t.isSolid = true) : t.mark? = none := by
  cases t <;> first | rfl | cases h

theorem scanNumeric_isSolid (s : List Char) : (scanNumeric s).token.isSolid = true := by
  rcases scanNumeric_cases s with ⟨n, w, h⟩ | ⟨n, w, h⟩ | ⟨n, u, w, h⟩ <;> rw [h] <;> rfl

theorem scanString_isSolid (q : Char) (r : List Char) :
    (scanString q r).token.isSolid = true := by
  rcases scanString_cases q r with ⟨s, w, h⟩ | ⟨s, w, h⟩ <;> rw [h] <;> rfl

theorem scanIdentLike_isSolid (s : List Char) : (scanIdentLike s).token.isSolid = true := by
  rcases scanIdentLike_cases s with h | h | ⟨u, w, h⟩ | ⟨u, w, h⟩ <;> rw [h] <;> rfl

theorem scanHash_isSolid (r : List Char) : (scanHash r).token.isSolid = true := by
  rcases scanHash_cases r with ⟨s, w, h⟩ | ⟨s, w, h⟩ | h <;> rw [h] <;> rfl

/-- The lexeme at the front of a text, where all solid tokens are alike. -/
theorem scan_elim_of_solid {p : Lexeme → Prop} {c : Char} {r : List Char}
    (solid : ∀ x : Lexeme, x.token.isSolid = true → p x)
    (space : isSpace c = true → p ⟨.whitespace (String.ofList ((c :: r).takeWhile isSpace)),
      (c :: r).takeWhile isSpace⟩)
    (comment : c = '/' → r.head? = some '*' → p (scanComment (r.drop 1)))
    (at_sign : c = '@' → p (scanAt r))
    (commentClose : (c :: r).take 3 = ['-', '-', '>'] → p ⟨.commentClose, ['-', '-', '>']⟩)
    (commentOpen : (c :: r).take 4 = ['<', '!', '-', '-'] →
      p ⟨.commentOpen, ['<', '!', '-', '-']⟩)
    (punctuation : p (scanPunctuation c r)) : p (scan c r) := by
  apply scan_elim
  case space => exact space
  case comment => exact comment
  case string => intro _; exact solid _ (scanString_isSolid c r)
  case hash => intro _; exact solid _ (scanHash_isSolid r)
  case at_sign => exact at_sign
  case numeric => intro _; exact solid _ (scanNumeric_isSolid _)
  case commentClose => exact commentClose
  case commentOpen => exact commentOpen
  case identLike => intro _; exact solid _ (scanIdentLike_isSolid _)
  case punctuation => exact punctuation

/-! ## Marks -/

theorem scanAt_mark? (r : List Char) : (scanAt r).token.mark? = none := by
  rcases scanAt_cases r with ⟨s, w, h⟩ | h <;> rw [h] <;> rfl

theorem single_mark? {c d : Char} (h : (single c).mark? = some d) : c = d := by
  unfold single at h
  repeat' split at h
  all_goals
    cases h
    try assumption

theorem scanPunctuation_mark? {c d : Char} {r : List Char}
    (h : (scanPunctuation c r).token.mark? = some d) : (scanPunctuation c r).source = [d] := by
  have hmatchers : ∀ t ∈ matchers, t.mark? = none := by decide
  rcases scanPunctuation_cases c r with ⟨t, ht, hread⟩ | hread <;> rw [hread] at h ⊢
  · exact absurd (h.symm.trans (hmatchers t ht)) nofun
  · rw [single_mark? h]

/-- A token for a single mark is read from that mark. -/
theorem scan_source_of_mark? {c d : Char} {r : List Char} (h : (scan c r).token.mark? = some d) :
    (scan c r).source = [d] := by
  revert h
  apply scan_elim_of_solid (p := fun x => x.token.mark? = some d → x.source = [d])
  case solid => intro x hsolid h; rw [Token.mark?_of_isSolid hsolid] at h; cases h
  case space => intro _ h; cases h
  case comment => intro _ _ h; cases h
  case at_sign => intro _ h; rw [scanAt_mark?] at h; cases h
  case commentClose => intro _ h; cases h
  case commentOpen => intro _ h; cases h
  case punctuation => exact scanPunctuation_mark?

theorem Lexeme.IsRead.source_of_mark? {x : Lexeme} {d : Char} (hx : x.IsRead)
    (h : x.token.mark? = some d) : x.source = [d] := by
  obtain ⟨c, r, rfl⟩ := hx
  exact scan_source_of_mark? h

/-! ## Delimiters -/

/-- The character that a delimiter stands for. -/
def Token.delim? : Token → Option Char
  | .delim c => some c
  | _ => none

theorem single_delim? {c d : Char} (h : (single c).delim? = some d) : c = d := by
  unfold single at h
  repeat' split at h
  all_goals
    cases h
    try rfl

theorem scanPunctuation_delim? {c d : Char} {r : List Char}
    (h : (scanPunctuation c r).token.delim? = some d) : (scanPunctuation c r).source = [d] := by
  have hmatchers : ∀ t ∈ matchers, t.delim? = none := by decide
  rcases scanPunctuation_cases c r with ⟨t, ht, hread⟩ | hread <;> rw [hread] at h ⊢
  · exact absurd (h.symm.trans (hmatchers t ht)) nofun
  · rw [single_delim? h]

/-- A delimiter is read from its character. -/
theorem scan_source_of_delim? {c d : Char} {r : List Char}
    (h : (scan c r).token.delim? = some d) : (scan c r).source = [d] := by
  revert h
  apply scan_elim (p := fun x => x.token.delim? = some d → x.source = [d])
  case space => intro _ h; cases h
  case comment => intro _ _ h; cases h
  case string =>
    intro _ h
    rcases scanString_cases c r with ⟨s, w, hread⟩ | ⟨s, w, hread⟩ <;> rw [hread] at h <;> cases h
  case hash =>
    intro _ h
    rcases scanHash_cases r with ⟨s, w, hread⟩ | ⟨s, w, hread⟩ | hread <;> rw [hread] at h ⊢ <;>
      cases h
    rfl
  case at_sign =>
    intro _ h
    rcases scanAt_cases r with ⟨s, w, hread⟩ | hread <;> rw [hread] at h ⊢ <;> cases h
    rfl
  case numeric =>
    intro _ h
    rcases scanNumeric_cases (c :: r) with ⟨n, w, hread⟩ | ⟨n, w, hread⟩ | ⟨n, u, w, hread⟩ <;>
      rw [hread] at h <;> cases h
  case commentClose => intro _ h; cases h
  case commentOpen => intro _ h; cases h
  case identLike =>
    intro _ h
    rcases scanIdentLike_cases (c :: r) with hread | hread | ⟨u, w, hread⟩ | ⟨u, w, hread⟩ <;>
      rw [hread] at h <;> cases h
  case punctuation => exact scanPunctuation_delim?

theorem Lexeme.IsRead.source_of_delim? {x : Lexeme} {d : Char} (hx : x.IsRead)
    (h : x.token.delim? = some d) : x.source = [d] := by
  obtain ⟨c, r, rfl⟩ := hx
  exact scan_source_of_delim? h

/-- The mark that closes the group which a token opens. -/
def Token.closingMark? (t : Token) : Option Char := t.closer?.bind Token.mark?

theorem Token.closingMark?_of_closer? {t u : Token} (h : t.closer? = some u) :
    ∃ d, t.closingMark? = some d ∧ u.mark? = some d := by
  cases t <;> cases h <;> exact ⟨_, rfl, rfl⟩

end MailCss.Css
