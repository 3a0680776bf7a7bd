import MailCss.Proofs.Css.Halt
import MailCss.Proofs.Css.Scan

/-!
# Where lexemes end

Reading a name or a number stops at white space and at a semicolon, so behind a text without
backslashes neither of them changes what was read (the `_stop` lemmas). What such reading takes are
*words*: texts without white space and parentheses. A url that is not in quotes reaches to the
first closing parenthesis and does not depend on what is behind it.

Main statements: the lemmas `_stop` and `_isWord` of each kind of lexeme, and `scanUrl_closed`.
-/

namespace MailCss.Css

/-! ## White space -/

theorem scan_space {a : Char} (h : isSpace a = true) (r : List Char) :
    scan a r = ⟨.whitespace (String.ofList ((a :: r).takeWhile isSpace)),
      (a :: r).takeWhile isSpace⟩ := by
  simp only [scan, h, if_true]

/-- White space is one lexeme. -/
theorem lexemes_spaces {w r : List Char} (hw : ∀ c ∈ w, isSpace c = true) (hne : w ≠ [])
    (hr : ∀ c ∈ r.head?, isSpace c = false) :
    lexemes (w ++ r) = ⟨.whitespace (String.ofList w), w⟩ :: lexemes r := by
  obtain ⟨c, w, rfl⟩ := List.exists_cons_of_ne_nil hne
  have htake : (c :: (w ++ r)).takeWhile isSpace = c :: w := by
    rw [← List.cons_append, takeWhile_append_of_head hr, List.takeWhile_eq_self_iff]
    exact hw
  have hscan := scan_space (hw c List.mem_cons_self) (w ++ r)
  rw [htake] at hscan
  exact lexemes_eq_cons hscan rfl

theorem lexemes_space {r : List Char} (hr : ∀ c ∈ r.head?, isSpace c = false) :
    lexemes (' ' :: r) = ⟨.whitespace " ", [' ']⟩ :: lexemes r :=
  lexemes_spaces (w := [' ']) (by simp [isSpace]) (by simp) hr

/-! ## Names and numbers -/

theorem spanName_cons {c : Char} {r : List Char} (hc : c ≠ '\\') :
    spanName (c :: r) =
      if inName c then (c :: (spanName r).1, (spanName r).2) else ([], c :: r) := by
  rw [spanName, escapedSpan]
  simp only [Escape.claims, hc, endsName]
  cases inName c <;> simp [spanName, hc]

theorem mem_of_mem_spanExponent {c : Char} {s : List Char}
    (h : c ∈ (spanExponent (spanFraction (spanDigits (spanSign s).2).2).2).2) : c ∈ s := by
  rw [← spanSign_append s, ← spanDigits_append (spanSign s).2,
    ← spanFraction_append (spanDigits (spanSign s).2).2,
    ← spanExponent_append (spanFraction (spanDigits (spanSign s).2).2).2]
  simp [h]

section Stop

/-- Nothing more, or a character that no lexeme but white space goes on with: a space, or a
semicolon. -/
def Stops (r : List Char) : Prop := ∀ c ∈ r.head?, c = ' ' ∨ c = ';'

variable {r : List Char} (hr : Stops r)

include hr

theorem Stops.halts : Halts r := by
  intro c hc
  rcases hr c hc with rfl | rfl <;> decide

/-- A name without escapes ends where it ends. -/
theorem spanName_stop (s : List Char) (hs : '\\' ∉ s) :
    spanName (s ++ r) = ((spanName s).1, (spanName s).2 ++ r) :=
  spanName_halt (hr.halts.halted s) fun _ => Escape.spares_of_not_mem hs r

theorem scanNumeric_stop (s : List Char) (hs : '\\' ∉ s) :
    scanNumeric (s ++ r) = scanNumeric s :=
  scanNumeric_halt (hr.halts.halted s) fun _ => Escape.spares_of_not_mem hs r

theorem scanHash_stop (s : List Char) (hs : '\\' ∉ s) : scanHash (s ++ r) = scanHash s :=
  scanHash_halt (hr.halts.halted s) fun _ => Escape.spares_of_not_mem hs r

theorem scanAt_stop (s : List Char) (hs : '\\' ∉ s) : scanAt (s ++ r) = scanAt s :=
  scanAt_halt (hr.halts.halted s) fun _ => Escape.spares_of_not_mem hs r

end Stop

/-! ## Words -/

/-- The characters of words: all but white space and parentheses. -/
def isWordChar (c : Char) : Bool := !isSpace c && c ≠ '(' && c ≠ ')'

/-- Whether a token neither opens nor closes anything, nor separates what is around it. -/
def Token.isInline : Token → Bool
  | .whitespace _ | .comment _ | .semicolon | .function _ | .parenOpen | .squareOpen | .curlyOpen
  | .parenClose | .squareClose | .curlyClose => false
  | _ => true

/-- A lexeme that is a word. -/
structure Lexeme.IsWord (x : Lexeme) : Prop where
  chars : ∀ c ∈ x.source, isWordChar c = true
  inline : x.token.isInline = true

theorem isWord_of_all {t : Token} {w : List Char} (hw : w.all isWordChar = true)
    (ht : t.isInline = true) : Lexeme.IsWord ⟨t, w⟩ :=
  ⟨List.all_eq_true.1 hw, ht⟩

theorem isWordChar_of_inName {c : Char} (h : inName c = true) : isWordChar c = true := by
  have hspace : isSpace c = false := by
    rw [← Bool.not_eq_true]
    intro hspace
    rcases isSpace_cases hspace with rfl | rfl | rfl | rfl | rfl <;> revert h <;> decide
  have hopen : c ≠ '(' := by
    rintro rfl
    revert h
    decide
  have hclose : c ≠ ')' := by
    rintro rfl
    revert h
    decide
  simp [isWordChar, hspace, hopen, hclose]

theorem isWordChar_of_isDigit {c : Char} (h : c.isDigit = true) : isWordChar c = true :=
  isWordChar_of_inName (by simp [inName, h])

theorem isWordChar_spanSign {s : List Char} : ∀ c ∈ (spanSign s).1, isWordChar c = true := by
  intro c hc
  rcases s with _ | ⟨a, s⟩
  · cases hc
  · rw [spanSign] at hc
    split at hc
    · rename_i ha
      rw [List.mem_singleton] at hc
      rcases ha with rfl | rfl <;> subst hc <;> decide
    · cases hc

theorem isWordChar_spanDigits {s : List Char} : ∀ c ∈ (spanDigits s).1, isWordChar c = true := by
  intro c hc
  exact isWordChar_of_isDigit (List.mem_takeWhile_imp hc)

theorem isWordChar_spanFraction {s : List Char} :
    ∀ c ∈ (spanFraction s).1, isWordChar c = true := by
  intro c hc
  rcases s with _ | ⟨a, s⟩
  · cases hc
  · simp only [spanFraction] at hc
    split at hc
    · rename_i ha
      rcases List.mem_cons.1 hc with rfl | hc
      · rw [ha.1]
        decide
      · exact isWordChar_spanDigits c hc
    · cases hc

theorem isWordChar_spanExponent {s : List Char} :
    ∀ c ∈ (spanExponent s).1, isWordChar c = true := by
  intro c hc
  rcases s with _ | ⟨a, s⟩
  · cases hc
  · simp only [spanExponent] at hc
    split at hc
    · rename_i ha
      rcases List.mem_cons.1 hc with rfl | hc
      · rcases ha.1 with rfl | rfl <;> decide
      · rcases List.mem_append.1 hc with hc | hc
        · exact isWordChar_spanSign c hc
        · exact isWordChar_spanDigits c hc
    · cases hc

theorem isWordChar_spanName {s : List Char} (hs : '\\' ∉ s) :
    ∀ c ∈ (spanName s).1, isWordChar c = true := by
  induction s with
  | nil =>
    intro c hc
    cases hc
  | cons a s ih =>
    rw [List.mem_cons, not_or] at hs
    rw [spanName_cons fun h => hs.1 h.symm]
    intro c hc
    split at hc
    · rename_i ha
      rcases List.mem_cons.1 hc with rfl | hc
      · exact isWordChar_of_inName ha
      · exact ih hs.2 c hc
    · cases hc

theorem scanNumeric_isWord {s : List Char} (hs : '\\' ∉ s) : (scanNumeric s).IsWord := by
  have hsub : '\\' ∉ (spanExponent (spanFraction (spanDigits (spanSign s).2).2).2).2 :=
    fun hmem => hs (mem_of_mem_spanExponent hmem)
  have htext : ∀ c ∈ (spanSign s).1 ++ (spanDigits (spanSign s).2).1 ++
      (spanFraction (spanDigits (spanSign s).2).2).1 ++
      (spanExponent (spanFraction (spanDigits (spanSign s).2).2).2).1, isWordChar c = true := by
    intro c hc
    simp only [List.mem_append] at hc
    rcases hc with ((hc | hc) | hc) | hc
    · exact isWordChar_spanSign c hc
    · exact isWordChar_spanDigits c hc
    · exact isWordChar_spanFraction c hc
    · exact isWordChar_spanExponent c hc
  simp only [scanNumeric]
  split
  · refine ⟨?_, rfl⟩
    intro c hc
    rcases List.mem_append.1 hc with hc | hc
    · exact htext c hc
    · rw [List.mem_singleton.1 hc]
      decide
  · split
    · refine ⟨?_, rfl⟩
      intro c hc
      rcases List.mem_append.1 hc with hc | hc
      · exact htext c hc
      · exact isWordChar_spanName hsub c hc
    · exact ⟨htext, rfl⟩

theorem scanHash_isWord {s : List Char} (hs : '\\' ∉ s) : (scanHash s).IsWord := by
  have hname : ∀ c ∈ '#' :: (spanName s).1, isWordChar c = true := by
    intro c hc
    rcases List.mem_cons.1 hc with rfl | hc
    · decide
    · exact isWordChar_spanName hs c hc
  simp only [scanHash]
  split
  · exact ⟨hname, rfl⟩
  · split
    · exact ⟨hname, rfl⟩
    · exact isWord_of_all rfl rfl

theorem scanAt_isWord {s : List Char} (hs : '\\' ∉ s) : (scanAt s).IsWord := by
  simp only [scanAt]
  split
  · refine ⟨?_, rfl⟩
    intro c hc
    rcases List.mem_cons.1 hc with rfl | hc
    · decide
    · exact isWordChar_spanName hs c hc
  · exact isWord_of_all rfl rfl

/-! ## Identifiers, functions and urls -/

theorem scanIdentLike_ident {s : List Char} (h : (spanName s).2.head? ≠ some '(') :
    scanIdentLike s =
      ⟨.ident (String.ofList (unescape (spanName s).1)), (spanName s).1⟩ := by
  simp only [scanIdentLike]
  split
  · rename_i r hr
    rw [hr] at h
    exact absurd rfl h
  · rfl

theorem scanIdentLike_function {s t : List Char} (h : (spanName s).2 = '(' :: t)
    (hname : isUrlName (unescape (spanName s).1) = false) :
    scanIdentLike s =
      ⟨.function (String.ofList (unescape (spanName s).1)), (spanName s).1 ++ ['(']⟩ := by
  simp only [scanIdentLike, h, hname]

theorem scanIdentLike_url {s t : List Char} (h : (spanName s).2 = '(' :: t)
    (hname : isUrlName (unescape (spanName s).1) = true)
    (hquote : ∀ c ∈ (t.dropWhile isSpace).head?, c ≠ '"' ∧ c ≠ '\'') :
    scanIdentLike s = scanUrl ((spanName s).1 ++ ['(']) t := by
  simp only [scanIdentLike, h, hname]
  split
  · rename_i r hr
    rw [hr] at hquote
    exact absurd rfl (hquote _ rfl).1
  · rename_i r hr
    rw [hr] at hquote
    exact absurd rfl (hquote _ rfl).2
  · rename_i hfalse
    cases hfalse
  · rfl

/-- The body of an unquoted url ends at a closing parenthesis. -/
theorem escapedSpan_endsUrl_append {u : List Char} (hu : '\\' ∉ u) (r : List Char) :
    escapedSpan endsUrl .outside (u ++ ')' :: r) =
      ((escapedSpan endsUrl .outside u).1, (escapedSpan endsUrl .outside u).2 ++ ')' :: r) := by
  induction u with
  | nil => simp [escapedSpan, Escape.claims, endsUrl]
  | cons c u ih =>
    rw [List.mem_cons, not_or] at hu
    have hc : c ≠ '\\' := fun h => hu.1 h.symm
    have hends (t : List Char) : endsUrl c t = (isSpace c || c = ')' || breaksUrl c) := by
      simp [endsUrl, hc]
    rw [List.cons_append, escapedSpan, escapedSpan]
    simp only [Escape.claims, hends, hc]
    split
    · rfl
    · simp [ih hu.2]

theorem spanBadUrl_eq {u : List Char} (hclose : ')' ∉ u) (hslash : '\\' ∉ u) (r : List Char) :
    spanBadUrl false (u ++ ')' :: r) = (u, ')' :: r) := by
  induction u with
  | nil => simp [spanBadUrl]
  | cons c u ih =>
    rw [List.mem_cons, not_or] at hclose hslash
    have hc : c ≠ ')' := fun h => hclose.1 h.symm
    have hc' : c ≠ '\\' := fun h => hslash.1 h.symm
    rw [List.cons_append, spanBadUrl]
    simp [hc, hc', ih hclose.2 hslash.2]

/-- A url that is not in quotes, broken or not, reaches to the first closing parenthesis. -/
theorem scanUrl_closed (opener : List Char) {u : List Char} (hclose : ')' ∉ u)
    (hslash : '\\' ∉ u) :
    ∃ t : Token, t.isInline = true ∧
      ∀ r, scanUrl opener (u ++ ')' :: r) = ⟨t, opener ++ (u ++ [')'])⟩ := by
  have hhead (r : List Char) : ∀ c ∈ (')' :: r).head?, isSpace c = false := by
    rintro c ⟨⟩
    rfl
  -- The text in the brackets is white space, a body, white space, and what breaks the url, if any.
  obtain ⟨body, w, hspan⟩ : ∃ body w,
      escapedSpan endsUrl .outside (u.dropWhile isSpace) = (body, w) := ⟨_, _, rfl⟩
  have hsub : u =
      u.takeWhile isSpace ++ (body ++ (w.takeWhile isSpace ++ w.dropWhile isSpace)) := by
    have happend := escapedSpan_append endsUrl .outside (u.dropWhile isSpace)
    rw [hspan] at happend
    simp only [List.takeWhile_append_dropWhile]
    rw [happend, List.takeWhile_append_dropWhile]
  have hspace : '\\' ∉ u.dropWhile isSpace := fun h => hslash ((List.dropWhile_suffix _).subset h)
  have hscan (r : List Char) := escapedSpan_endsUrl_append hspace r
  rw [hspan] at hscan
  cases hrest : w.dropWhile isSpace with
  | nil =>
    -- Nothing breaks the url, and the parenthesis closes it.
    refine ⟨.url (String.ofList (unescape body)), rfl, ?_⟩
    intro r
    rw [hrest] at hsub
    simp only [scanUrl, takeWhile_append_of_head (hhead r), dropWhile_append_of_head (hhead r),
      hscan, hrest]
    simp only [List.nil_append, if_pos]
    conv => rhs; rw [hsub]
    simp
  | cons c v =>
    refine ⟨.badUrl (String.ofList (body ++ w.takeWhile isSpace ++ c :: v)), rfl, ?_⟩
    intro r
    rw [hrest] at hsub
    have hmem (d : Char) (hd : d ∈ c :: v) : d ∈ u := by
      rw [hsub]
      simp only [List.mem_append]
      exact .inr (.inr (.inr hd))
    have hc : c ≠ ')' := by
      rintro rfl
      exact hclose (hmem _ List.mem_cons_self)
    -- The broken url goes on, but not past the parenthesis either.
    have hjunk := spanBadUrl_eq (fun h => hclose (hmem _ (List.mem_cons_of_mem _ h)))
      (fun h => hslash (hmem _ (List.mem_cons_of_mem _ h))) r
    simp only [scanUrl, takeWhile_append_of_head (hhead r), dropWhile_append_of_head (hhead r),
      hscan, hrest]
    simp only [List.cons_append, hc, if_false, hjunk]
    conv => rhs; rw [hsub]
    simp

/-- A name and a url up to the first closing parenthesis are read the same whatever follows. -/
theorem scanIdentLike_closed {s u v : List Char} (hslash : '\\' ∉ s)
    (h : (spanName s).2 = '(' :: (u ++ ')' :: v))
    (hname : isUrlName (unescape (spanName s).1) = true) (hclose : ')' ∉ u)
    (hquote : ∀ c ∈ u, c ≠ '"' ∧ c ≠ '\'') :
    ∃ t : Token, t.isInline = true ∧ ∀ r, Stops r →
      scanIdentLike (s ++ r) = ⟨t, (spanName s).1 ++ '(' :: (u ++ [')'])⟩ := by
  have hslash' : '\\' ∉ u := by
    intro hmem
    apply hslash
    rw [← spanName_append s, h]
    simp [hmem]
  obtain ⟨t, ht, hscan⟩ := scanUrl_closed ((spanName s).1 ++ ['(']) hclose hslash'
  refine ⟨t, ht, ?_⟩
  intro r hr
  have hstop := spanName_stop hr s hslash
  -- What is in the parentheses begins with no quote, and so the url has none.
  have hfront : ∀ c ∈ ((u ++ ')' :: (v ++ r)).dropWhile isSpace).head?, c ≠ '"' ∧ c ≠ '\'' := by
    intro c hc
    rw [dropWhile_append_of_head (by rintro c ⟨⟩; rfl)] at hc
    cases hdrop : u.dropWhile isSpace with
    | nil =>
      rw [hdrop] at hc
      cases hc
      decide
    | cons b w =>
      rw [hdrop] at hc
      obtain rfl : b = c := Option.some.inj hc
      exact hquote b ((List.dropWhile_suffix _).subset (hdrop ▸ List.mem_cons_self))
  rw [scanIdentLike_url (t := u ++ ')' :: (v ++ r)) ?_ (by rw [hstop]; exact hname) hfront, hstop,
    hscan]
  · simp
  · rw [hstop, h]
    simp

end MailCss.Css
