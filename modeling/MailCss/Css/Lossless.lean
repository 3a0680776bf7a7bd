import MailCss.Css.TokenTree

/-!
# Nothing is lost

Reading tokens only cuts a text into pieces, and nesting their groups only arranges the pieces.

Main statements:
* `scan_source_prefix`: a lexeme's text is the front of the text that it is read from;
* `scan_source_ne_nil`: a lexeme takes at least one character;
* `lexemes_source`: the lexemes of a text make up the text;
* `TokenTree.sourceAll_ofText`: so do its token trees.
-/

namespace MailCss.Css

/-! ## Parts of numbers -/

theorem spanSign_append (s : List Char) : (spanSign s).1 ++ (spanSign s).2 = s := by
  cases s with
  | nil => rfl
  | cons c r => simp only [spanSign]; split <;> rfl

theorem spanDigits_append (s : List Char) : (spanDigits s).1 ++ (spanDigits s).2 = s :=
  List.takeWhile_append_dropWhile

theorem spanFraction_append (s : List Char) : (spanFraction s).1 ++ (spanFraction s).2 = s := by
  cases s with
  | nil => rfl
  | cons c r =>
    have h := spanDigits_append r
    simp only [spanFraction]
    split
    · simp [h]
    · rfl

theorem spanExponent_append (s : List Char) : (spanExponent s).1 ++ (spanExponent s).2 = s := by
  cases s with
  | nil => rfl
  | cons c r =>
    have h := spanSign_append r
    have h' := spanDigits_append (spanSign r).2
    simp only [spanExponent]
    split
    · simp [h, h']
    · rfl

theorem spanName_append (s : List Char) : (spanName s).1 ++ (spanName s).2 = s :=
  escapedSpan_append ..

theorem scanNumeric_source_prefix (s : List Char) : (scanNumeric s).source <+: s := by
  have h₁ := spanSign_append s
  have h₂ := spanDigits_append (spanSign s).2
  have h₃ := spanFraction_append (spanDigits (spanSign s).2).2
  have h₄ := spanExponent_append (spanFraction (spanDigits (spanSign s).2).2).2
  have h₅ := spanName_append (spanExponent (spanFraction (spanDigits (spanSign s).2).2).2).2
  -- The rest behind the exponent, which begins with a percent sign or a unit.
  generalize hr : (spanExponent (spanFraction (spanDigits (spanSign s).2).2).2).2 = rest at *
  have hs : s = (spanSign s).1 ++ ((spanDigits (spanSign s).2).1 ++
      ((spanFraction (spanDigits (spanSign s).2).2).1 ++
        ((spanExponent (spanFraction (spanDigits (spanSign s).2).2).2).1 ++ rest))) := by
    rw [h₄, h₃, h₂, h₁]
  simp only [scanNumeric, hr]
  split
  · rename_i hp
    obtain ⟨x, hx⟩ : ∃ x, rest = '%' :: x := by
      cases rest with
      | nil => simp at hp
      | cons c x => exact ⟨x, by simpa using hp⟩
    refine ⟨x, ?_⟩
    conv => rhs; rw [hs, hx]
    simp
  · split
    · refine ⟨(spanName rest).2, ?_⟩
      conv => rhs; rw [hs, ← h₅]
      simp
    · refine ⟨rest, ?_⟩
      conv => rhs; rw [hs]
      simp

/-! ## Comments, strings and urls -/

theorem spanComment_prefix (s : List Char) :
    (spanComment s).1 ++ (if (spanComment s).2 then ['*', '/'] else []) <+: s := by
  fun_induction spanComment s with
  | case1 => simp
  | case2 r => simp
  | case3 c r _ text closed h ih => simpa [h] using ih

theorem scanComment_source_prefix (r : List Char) :
    (scanComment r).source <+: '/' :: '*' :: r := by
  have h := spanComment_prefix r
  simp only [scanComment]
  simpa using h

theorem scanString_source_prefix (q : Char) (r : List Char) :
    (scanString q r).source <+: q :: r := by
  have h := escapedSpan_append (fun c _ => c = q || isNewline c) .outside r
  simp only [scanString]
  split
  · rename_i hr
    rw [hr] at h
    simp only [List.append_nil] at h
    simp [h]
  · rename_i c x hr
    rw [hr] at h
    split
    · rename_i hc
      subst hc
      exact ⟨x, by simpa using h⟩
    · exact ⟨c :: x, by simpa using h⟩

theorem spanBadUrl_append (e : Bool) (s : List Char) :
    (spanBadUrl e s).1 ++ (spanBadUrl e s).2 = s := by
  induction s generalizing e with
  | nil => rfl
  | cons c r ih =>
    rw [spanBadUrl]
    split
    · rfl
    · simp [ih]

theorem scanUrl_source_prefix (opener r : List Char) :
    (scanUrl opener r).source <+: opener ++ r := by
  have h₁ : r.takeWhile isSpace ++ r.dropWhile isSpace = r := List.takeWhile_append_dropWhile
  have h₂ := escapedSpan_append endsUrl .outside (r.dropWhile isSpace)
  simp only [scanUrl]
  generalize (escapedSpan endsUrl .outside (r.dropWhile isSpace)).2 = r₁ at *
  generalize (escapedSpan endsUrl .outside (r.dropWhile isSpace)).1 = body at *
  have h₃ : r₁.takeWhile isSpace ++ r₁.dropWhile isSpace = r₁ := List.takeWhile_append_dropWhile
  have hr : r = r.takeWhile isSpace ++ (body ++ (r₁.takeWhile isSpace ++ r₁.dropWhile isSpace)) := by
    rw [h₃, h₂, h₁]
  split
  · rename_i h
    refine ⟨[], ?_⟩
    conv => rhs; rw [hr, h]
    simp
  · rename_i c r₂ h
    have h₄ := spanBadUrl_append false r₂
    split
    · refine ⟨r₂, ?_⟩
      conv => rhs; rw [hr, h]
      simp
    · refine ⟨(spanBadUrl false r₂).2.drop 1, ?_⟩
      conv => rhs; rw [hr, h, ← h₄, ← List.take_append_drop 1 (spanBadUrl false r₂).2]
      simp

/-! ## Lexemes -/

theorem scanIdentLike_source_prefix (s : List Char) : (scanIdentLike s).source <+: s := by
  have h := spanName_append s
  simp only [scanIdentLike]
  split
  · rename_i r hr
    rw [hr] at h
    split
    · exact ⟨r, by simpa using h⟩
    · exact ⟨r, by simpa using h⟩
    · exact ⟨r, by simpa using h⟩
    · have hu := scanUrl_source_prefix ((spanName s).1 ++ ['(']) r
      simpa [h] using hu
  · exact ⟨_, h⟩

theorem scanHash_source_prefix (r : List Char) : (scanHash r).source <+: '#' :: r := by
  have h := spanName_append r
  simp only [scanHash]
  split
  · exact ⟨(spanName r).2, by simp [h]⟩
  · split
    · exact ⟨(spanName r).2, by simp [h]⟩
    · exact ⟨r, rfl⟩

theorem scanAt_source_prefix (r : List Char) : (scanAt r).source <+: '@' :: r := by
  have h := spanName_append r
  simp only [scanAt]
  split
  · exact ⟨(spanName r).2, by simp [h]⟩
  · exact ⟨r, rfl⟩

theorem scanPunctuation_source_prefix (c : Char) (r : List Char) :
    (scanPunctuation c r).source <+: c :: r := by
  unfold scanPunctuation
  split <;> simp

/-- A lexeme's text is the front of the text that it is read from. -/
theorem scan_source_prefix (c : Char) (r : List Char) : (scan c r).source <+: c :: r := by
  simp only [scan]
  split
  · exact List.takeWhile_prefix _
  split
  · rename_i h
    obtain ⟨rfl, h⟩ := h
    obtain ⟨x, rfl⟩ : ∃ x, r = '*' :: x := by
      cases r with
      | nil => simp at h
      | cons d x => exact ⟨x, by simpa using h⟩
    exact scanComment_source_prefix x
  split
  · exact scanString_source_prefix c r
  split
  · rename_i h; subst h; exact scanHash_source_prefix r
  split
  · rename_i h; subst h; exact scanAt_source_prefix r
  split
  · exact scanNumeric_source_prefix _
  split
  · rename_i h; exact h ▸ List.take_prefix 3 _
  split
  · rename_i h; exact h ▸ List.take_prefix 4 _
  split
  · exact scanIdentLike_source_prefix _
  · exact scanPunctuation_source_prefix c r

theorem scanNumeric_source_ne_nil {s : List Char} (h : startsNumber s = true) :
    (scanNumeric s).source ≠ [] := by
  have h' : (spanDigits (spanSign s).2).1 ≠ [] ∨
      (spanFraction (spanDigits (spanSign s).2).2).1 ≠ [] := by
    simpa [startsNumber] using h
  simp only [scanNumeric]
  split
  · simp
  · split <;> rcases h' with h' | h' <;> simp [h']

/-- An identifier does not end before its first character. -/
theorem endsName_of_startsIdent {c : Char} {r : List Char} (h : startsIdent (c :: r) = true) :
    endsName c r = false := by
  by_cases hb : c = '\\'
  · subst hb
    have : startsLine r = false := by simpa [startsIdent] using h
    simp [endsName, this]
  · by_cases hm : c = '-'
    · subst hm; rfl
    · have hs : startsName c = true := by
        have : startsIdent (c :: r) = startsName c := by
          unfold startsIdent
          split <;> simp_all
        rw [← this]; exact h
      simp [endsName, inName, hs]

theorem spanName_ne_nil {c : Char} {r : List Char} (h : startsIdent (c :: r) = true) :
    (spanName (c :: r)).1 ≠ [] := by
  simp [spanName, escapedSpan, Escape.claims, endsName_of_startsIdent h]

theorem scanUrl_source_ne_nil {opener : List Char} (r : List Char) (h : opener ≠ []) :
    (scanUrl opener r).source ≠ [] := by
  simp only [scanUrl]
  split
  · simp [h]
  · split <;> simp [h]

theorem scanIdentLike_source_ne_nil {c : Char} {r : List Char}
    (h : startsIdent (c :: r) = true) : (scanIdentLike (c :: r)).source ≠ [] := by
  have hn := spanName_ne_nil h
  simp only [scanIdentLike]
  split
  · split
    · simp
    · simp
    · simp
    · exact scanUrl_source_ne_nil _ (by simp)
  · exact hn

/-- A lexeme takes at least one character. -/
theorem scan_source_ne_nil (c : Char) (r : List Char) : (scan c r).source ≠ [] := by
  simp only [scan]
  split
  · rename_i h; simp [h]
  split
  · simp [scanComment]
  split
  · simp only [scanString]
    split
    · simp
    · split <;> simp
  split
  · simp only [scanHash]
    split
    · simp
    · split <;> simp
  split
  · simp only [scanAt]
    split <;> simp
  split
  · rename_i h; exact scanNumeric_source_ne_nil h
  split
  · simp
  split
  · simp
  split
  · rename_i h; exact scanIdentLike_source_ne_nil h
  · unfold scanPunctuation
    split <;> simp

/-- A lexeme's text begins as the text that it is read from. -/
theorem exists_scan_source (c : Char) (r : List Char) : ∃ w, (scan c r).source = c :: w := by
  obtain ⟨d, w, hw⟩ := List.exists_cons_of_ne_nil (scan_source_ne_nil c r)
  have hfront := scan_source_prefix c r
  rw [hw, List.cons_prefix_cons] at hfront
  exact ⟨w, by rw [hw, hfront.1]⟩

/-- What is skipped belongs to the lexeme before. -/
theorem lexemesAfter_eq (skip : Nat) (s : List Char) :
    lexemesAfter skip s = lexemes (s.drop skip) := by
  induction s generalizing skip with
  | nil => cases skip <;> simp [lexemes, lexemesAfter]
  | cons c r ih =>
    cases skip with
    | zero => rfl
    | succ n => simpa [lexemesAfter] using ih n

/-- The lexemes of a text: the first one, and those of what it leaves. -/
theorem lexemes_cons (c : Char) (r : List Char) :
    lexemes (c :: r) = scan c r :: lexemes ((c :: r).drop (scan c r).source.length) := by
  obtain ⟨n, hn⟩ : ∃ n, (scan c r).source.length = n + 1 :=
    Nat.exists_eq_succ_of_ne_zero fun h => scan_source_ne_nil c r (List.length_eq_zero_iff.1 h)
  rw [lexemes, lexemesAfter, lexemesAfter_eq, hn]
  simp

/-- A text begins with the lexeme that is read at its front. -/
theorem lexemes_eq_cons {c : Char} {r t : List Char} {x : Lexeme} (hscan : scan c r = x)
    (h : c :: r = x.source ++ t) : lexemes (c :: r) = x :: lexemes t := by
  have hdrop : (c :: r).drop x.source.length = t := by rw [h, List.drop_left]
  rw [lexemes_cons, hscan, hdrop]

/-- A character that is a lexeme is cut off from the rest. -/
theorem lexemes_cons_of_scan {c : Char} {r : List Char} {t : Token} (h : scan c r = ⟨t, [c]⟩) :
    lexemes (c :: r) = ⟨t, [c]⟩ :: lexemes r :=
  lexemes_eq_cons h rfl

/-- What the first lexeme of a text leaves is shorter than the text, and the other lexemes are read
from it. -/
theorem exists_lexemes_cons (c : Char) (r : List Char) :
    ∃ t, c :: r = (scan c r).source ++ t ∧ t.length < (c :: r).length ∧
      lexemes (c :: r) = scan c r :: lexemes t := by
  obtain ⟨t, ht⟩ := scan_source_prefix c r
  refine ⟨t, ht.symm, ?_, lexemes_eq_cons rfl ht.symm⟩
  have hpos := List.length_pos_iff.2 (scan_source_ne_nil c r)
  rw [← ht, List.length_append]
  omega

/-- The lexemes of a text make up the text. -/
theorem lexemes_source (s : List Char) : (lexemes s).flatMap Lexeme.source = s := by
  match s with
  | [] => rfl
  | c :: r =>
    obtain ⟨t, ht, hlen, hcons⟩ := exists_lexemes_cons c r
    rw [hcons, List.flatMap_cons, lexemes_source t, ← ht]
termination_by s.length
decreasing_by exact hlen

/-! ## Token trees -/

namespace Builder

/-- The text of open groups and of the trees on their levels. -/
def frameSource : List Frame → List Char
  | [] => []
  | f :: fs => frameSource fs ++ (TokenTree.sourceAll f.before.reverse ++ f.opener.source)

/-- The text that a builder has read. -/
def source (b : Builder) : List Char :=
  frameSource b.frames ++ TokenTree.sourceAll b.done.reverse

/-- Feeding a lexeme adds its text. -/
theorem source_feed (b : Builder) (x : Lexeme) : (b.feed x).source = b.source ++ x.source := by
  obtain ⟨frames, done⟩ := b
  simp only [feed]
  split
  · rename_i h
    cases frames with
    | nil => simp [closes] at h
    | cons f fs => simp [close, source, frameSource, TokenTree.sourceAll, TokenTree.source]
  · split
    · simp [source, frameSource, TokenTree.sourceAll]
    · simp [source, TokenTree.sourceAll, TokenTree.source]

theorem source_foldl (b : Builder) (xs : List Lexeme) :
    (xs.foldl feed b).source = b.source ++ xs.flatMap Lexeme.source := by
  induction xs generalizing b with
  | nil => simp
  | cons x xs ih => simp [ih, source_feed]

theorem sourceAll_finishWith (done : List TokenTree) (fs : List Frame) :
    TokenTree.sourceAll (finishWith done fs) =
      frameSource fs ++ TokenTree.sourceAll done.reverse := by
  induction fs generalizing done with
  | nil => simp [finishWith, frameSource]
  | cons f fs ih =>
    simp [finishWith, ih, frameSource, TokenTree.sourceAll, TokenTree.source]

end Builder

/-- The token trees of a text make up the text. -/
theorem TokenTree.sourceAll_ofText (s : List Char) : sourceAll (ofText s) = s := by
  have h := Builder.source_foldl {} (lexemes s)
  rw [ofText, ofLexemes, Builder.finish, Builder.sourceAll_finishWith]
  rw [lexemes_source] at h
  simpa [Builder.source, Builder.frameSource, sourceAll] using h

end MailCss.Css
