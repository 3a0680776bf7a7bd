import MailCss.Proofs.Css.Stop

/-!
# Texts that end outside lexemes

A text may end inside a string, a comment, a url or an escape, and what stands behind it then goes
on with its last lexeme. A text that does not (`EndsOutside`) has the same lexemes in front of any
punctuation that no lexeme goes on with (`Bars`). In front of white space, it must not end in white
space or in the digits of an escape either (`EndsBefore`).

Main statements: `lexemes_append_of_endsBefore` and `lexemes_append_of_endsOutside`.
-/

namespace MailCss.Css

/-! ## Lexemes that are cut off -/

/-- Whether a text ends with the character `d`, and not with an escape for it. -/
def endsUnescaped (d : Char) (s : List Char) : Bool :=
  s.getLast? = some d && Escape.outside.run s.dropLast ≠ .opened

/-- Whether a lexeme is cut off by the end of the text: a comment, string or url that is not
closed, or an escape of which nothing but the backslash is there. -/
def Lexeme.isCut (x : Lexeme) : Bool :=
  match x.token with
  | .comment text => x.source ≠ ['/', '*'] ++ text.toList ++ ['*', '/']
  | .string _ => !x.source.head?.any fun quote => endsUnescaped quote (x.source.drop 1)
  | .url _ => !endsUnescaped ')' x.source
  | .badUrl text => !(text.toList ++ [')']).isSuffixOf x.source
  | _ => Escape.outside.run x.source = .opened

/-- The lexeme at the front of a text is not cut off by the end of the text. -/
def Lexeme.EndsIn (x : Lexeme) (s : List Char) : Prop := x.source = s → x.isCut = false

/-- The text does not end inside a comment, a string, a url or an escape. -/
def EndsOutside (s : List Char) : Prop := ∀ x ∈ (lexemes s).getLast?, x.isCut = false

instance (s : List Char) : Decidable (EndsOutside s) :=
  decidable_of_iff ((lexemes s).getLast?.all (!·.isCut) = true) <| by
    cases h : (lexemes s).getLast? <;> simp [EndsOutside, h]

/-! ## What is read to the end of a text -/

namespace Escape

/-- Only a backslash leaves an escape open. -/
theorem next_eq_opened {e : Escape} {c : Char} :
    e.next c = .opened ↔ c = '\\' ∧ e ≠ .opened := by
  have hslash : hexDigit? '\\' = none := by decide
  have hspace : isSpace '\\' = false := by decide
  constructor
  · intro h
    simp only [next] at h
    split at h
    · rename_i e' he'
      subst h
      cases e with
      | outside => cases he'
      | opened =>
        simp only [claims] at he'
        split at he'
        · cases he'
        · split at he' <;> cases he'
      | digits left v =>
        simp only [claims] at he'
        split at he'
        · cases he'
        · split at he'
          · split at he' <;> cases he'
          · cases he'
      | afterReturn =>
        simp only [claims] at he'
        split at he' <;> cases he'
    · rename_i hnone
      split at h
      · rename_i hc
        refine ⟨hc, ?_⟩
        rintro rfl
        rw [hc] at hnone
        simp [claims, hslash] at hnone
      · cases h
  · rintro ⟨rfl, hne⟩
    cases e with
    | outside => rfl
    | opened => exact absurd rfl hne
    | digits left v => cases left <;> simp [next, claims, hslash, hspace]
    | afterReturn => rfl

/-- What is neither in a name nor white space is claimed by a backslash in front of it only. -/
theorem claims_eq_none {e : Escape} {c : Char} (he : e ≠ .opened) (hname : inName c = false)
    (hspace : isSpace c = false) : e.claims c = none := by
  have hhex : hexDigit? c = none := by
    cases hdigit : hexDigit? c with
    | none => rfl
    | some d =>
      have halphanum := isAlphanum_of_hexDigit? hdigit
      simp only [Char.isAlphanum, Bool.or_eq_true] at halphanum
      rcases halphanum with h | h <;> simp [inName, startsName, h] at hname
  cases e with
  | outside => rfl
  | opened => exact absurd rfl he
  | digits left v => cases left <;> simp [claims, hhex, hspace]
  | afterReturn =>
    have hne : c ≠ '\n' := by
      rintro rfl
      revert hspace
      decide
    simp [claims, hne]

end Escape

/-- A text that is split off whole has no place where it would have been split. -/
theorem stop_of_escapedSpan_eq_nil {stop : Char → List Char → Bool} {e : Escape}
    {b t : List Char} {c : Char}
    (h : (escapedSpan stop e (b ++ c :: t)).2 = []) (hclaims : (e.run b).claims c = none) :
    stop c t = false := by
  induction b generalizing e with
  | nil =>
    rw [List.nil_append, escapedSpan] at h
    rw [Escape.run, List.foldl_nil] at hclaims
    rw [hclaims] at h
    simp only at h
    split at h
    · cases h
    · rename_i hstop
      simpa using hstop
  | cons a b ih =>
    rw [List.cons_append, escapedSpan] at h
    rw [Escape.run_cons] at hclaims
    split at h
    · rename_i e' he'
      refine ih h ?_
      simpa [Escape.next, he'] using hclaims
    · rename_i hnone
      split at h
      · cases h
      · refine ih h ?_
        simpa [Escape.next, hnone] using hclaims

theorem eq_append_of_endsUnescaped {d : Char} {s : List Char} (h : endsUnescaped d s = true) :
    ∃ b, s = b ++ [d] ∧ Escape.outside.run b ≠ .opened := by
  simp only [endsUnescaped, Bool.and_eq_true, decide_eq_true_eq] at h
  obtain ⟨b, rfl⟩ := List.getLast?_eq_some_iff.1 h.1
  exact ⟨b, rfl, by simpa using h.2⟩

/-! ## Comments, strings and urls -/

theorem spanComment_append_of_closed {s : List Char} (h : (spanComment s).2 = true)
    (r : List Char) :
    spanComment (s ++ r) = spanComment s := by
  fun_induction spanComment s with
  | case1 => cases h
  | case2 t => rfl
  | case3 c t hne text closed heq ih =>
    rw [heq] at ih
    rw [List.cons_append, spanComment, ih h]
    rintro u rfl hu
    rcases t with _ | ⟨b, t⟩
    · cases heq
      cases h
    · cases hu
      exact hne _ rfl rfl

theorem spanComment_fst_of_open {s : List Char} (h : (spanComment s).2 = false) :
    (spanComment s).1 = s := by
  fun_induction spanComment s with
  | case1 => rfl
  | case2 t => cases h
  | case3 c t hne text closed heq ih =>
    rw [heq] at ih
    exact congrArg _ (ih h)

theorem eq_of_cons_eq_append {x y : Char} {t : List Char} (h : x :: t = t ++ [y]) :
    ∀ c ∈ t, c = y := by
  induction t generalizing x with
  | nil => simp
  | cons a t ih =>
    rw [List.cons_append, List.cons.injEq] at h
    have hall := ih h.2
    intro c hc
    rcases List.mem_cons.1 hc with rfl | hc
    · rcases t with _ | ⟨b, t⟩
      · simpa using h.2
      · obtain rfl : c = b := (List.cons.inj h.2).1
        exact hall c List.mem_cons_self
    · exact hall c hc

theorem scanComment_append {s : List Char}
    (h : (scanComment s).EndsIn ('/' :: '*' :: s))
    (r : List Char) : scanComment (s ++ r) = scanComment s := by
  cases hclosed : (spanComment s).2 with
  | true => simp only [scanComment, spanComment_append_of_closed hclosed]
  | false =>
    have hwhole := spanComment_fst_of_open hclosed
    simp [scanComment, hclosed, hwhole, Lexeme.EndsIn, Lexeme.isCut] at h

theorem scanString_append {quote : Char} (hquote : quote = '"' ∨ quote = '\'') {s : List Char}
    (h : (scanString quote s).EndsIn (quote :: s))
    (r : List Char) : scanString quote (s ++ r) = scanString quote s := by
  have hmark : inName quote = false ∧ isSpace quote = false := by
    rcases hquote with rfl | rfl <;> decide
  by_cases hnil : (escapedSpan (fun c _ => c = quote || isNewline c) .outside s).2 = []
  · have hwhole := escapedSpan_fst_of_eq_nil hnil
    have hends : endsUnescaped quote s = true := by
      simpa [scanString, hnil, hwhole, Lexeme.EndsIn, Lexeme.isCut] using h
    -- The quote at the end would have ended the string.
    obtain ⟨b, rfl, hb⟩ := eq_append_of_endsUnescaped hends
    have hstop := stop_of_escapedSpan_eq_nil hnil (Escape.claims_eq_none hb hmark.1 hmark.2)
    simp at hstop
  · obtain ⟨c, t, hrest⟩ := List.exists_cons_of_ne_nil hnil
    have happend := escapedSpan_append_of_ne_nil (r := r) (fun _ _ _ => rfl) hnil
    simp only [scanString, happend, hrest, List.cons_append]

/-! ## Names and numbers -/

theorem isCut_scanHash (s : List Char) :
    (scanHash s).isCut = decide (Escape.outside.run (scanHash s).source = .opened) := by
  rcases scanHash_cases s with ⟨u, w, h⟩ | ⟨u, w, h⟩ | h <;> rw [h] <;> rfl

theorem isCut_scanAt (s : List Char) :
    (scanAt s).isCut = decide (Escape.outside.run (scanAt s).source = .opened) := by
  rcases scanAt_cases s with ⟨u, w, h⟩ | h <;> rw [h] <;> rfl

theorem isCut_scanNumeric (s : List Char) :
    (scanNumeric s).isCut = decide (Escape.outside.run (scanNumeric s).source = .opened) := by
  rcases scanNumeric_cases s with ⟨n, w, h⟩ | ⟨n, w, h⟩ | ⟨n, u, w, h⟩ <;> rw [h] <;> rfl

/-! ## Urls -/

/-- A text is not the end of itself with one more character, unless it is all that character. -/
theorem not_isSuffixOf_append {p t : List Char} {c y : Char} (hc : c ∈ t) (hne : c ≠ y) :
    (t ++ [y]).isSuffixOf (p ++ t) = false := by
  rw [← Bool.not_eq_true, List.isSuffixOf_iff_suffix]
  rintro ⟨u, hu⟩
  rcases List.eq_nil_or_concat p with rfl | ⟨p', x, rfl⟩
  · have hlength := congrArg List.length hu
    simp only [List.length_append, List.length_singleton, List.length_nil] at hlength
    omega
  · rw [List.concat_eq_append, List.append_assoc] at hu
    obtain ⟨-, heq⟩ := List.append_inj' hu (by simp)
    exact hne (eq_of_cons_eq_append heq.symm c hc)

theorem spanBadUrl_append_of_ne_nil {e : Bool} {s : List Char} (h : (spanBadUrl e s).2 ≠ [])
    (r : List Char) : spanBadUrl e (s ++ r) = ((spanBadUrl e s).1, (spanBadUrl e s).2 ++ r) := by
  induction s generalizing e with
  | nil => exact absurd rfl h
  | cons a s ih =>
    rw [spanBadUrl] at h
    rw [List.cons_append, spanBadUrl, spanBadUrl]
    split
    · rfl
    · rename_i hgo
      rw [if_neg hgo] at h
      rw [ih h]

theorem Escape.run_opener (name : List Char) : outside.run (name ++ ['(']) = outside := by
  have hnext (e : Escape) : e.next '(' = outside := by
    cases e with
    | digits left v => cases left <;> rfl
    | _ => rfl
  rw [run_append]
  exact hnext _

/-- A url that nothing breaks and no bracket closes reaches to the end and is cut off there. -/
theorem isCut_scanUrl (name : List Char) {q : List Char}
    (h : (escapedSpan endsUrl .outside (q.dropWhile isSpace)).2.dropWhile isSpace = []) :
    (scanUrl (name ++ ['(']) q).source = name ++ '(' :: q ∧
      (scanUrl (name ++ ['(']) q).isCut = true := by
  have hspan := escapedSpan_append endsUrl .outside (q.dropWhile isSpace)
  have htail := List.takeWhile_append_dropWhile (p := isSpace)
    (l := (escapedSpan endsUrl .outside (q.dropWhile isSpace)).2)
  have hsource : (scanUrl (name ++ ['(']) q).source = name ++ '(' :: q := by
    rw [h, List.append_nil] at htail
    simp only [scanUrl, h, htail]
    rw [List.append_assoc, hspan, List.append_assoc, List.takeWhile_append_dropWhile]
    simp
  have hcut : (scanUrl (name ++ ['(']) q).isCut = !endsUnescaped ')' (name ++ '(' :: q) := by
    rw [← hsource]
    simp only [scanUrl, h, Lexeme.isCut]
  refine ⟨hsource, ?_⟩
  rw [hcut, Bool.not_eq_true', ← Bool.not_eq_true]
  intro hends
  obtain ⟨b, hb, hrun⟩ := eq_append_of_endsUnescaped hends
  -- The text ends with a parenthesis that no backslash is in front of.
  obtain ⟨q', rfl⟩ : ∃ q', q = q' ++ [')'] := by
    rcases List.eq_nil_or_concat q with rfl | ⟨q', c, rfl⟩
    · obtain ⟨-, hc⟩ := List.append_inj' hb rfl
      cases hc
    · rw [List.concat_eq_append, ← List.cons_append, ← List.append_assoc] at hb
      obtain ⟨-, hc⟩ := List.append_inj' hb rfl
      exact ⟨q', by rw [List.concat_eq_append, hc]⟩
  obtain rfl : name ++ ['('] ++ q' = b := by
    rw [← List.cons_append, ← List.append_assoc, List.append_left_inj] at hb
    rw [← hb, List.append_assoc, List.singleton_append]
  rw [Escape.run_append, Escape.run_opener] at hrun
  have hdrop : (q' ++ [')']).dropWhile isSpace = q'.dropWhile isSpace ++ [')'] :=
    dropWhile_append_of_head (by rintro c ⟨⟩; rfl) q'
  rw [hdrop] at h hspan
  -- Only white space could stand behind the body, so the body reaches to the end.
  have hnil : (escapedSpan endsUrl .outside (q'.dropWhile isSpace ++ [')'])).2 = [] := by
    rcases List.eq_nil_or_concat (escapedSpan endsUrl .outside (q'.dropWhile isSpace ++ [')'])).2
      with hw | ⟨w, c, hw⟩
    · exact hw
    · rw [hw, List.concat_eq_append, ← List.append_assoc] at hspan
      obtain ⟨-, hc⟩ := List.append_inj' hspan rfl
      rw [hw, List.dropWhile_eq_nil_iff] at h
      have hspace := h c (by simp)
      rw [List.singleton_inj.1 hc] at hspace
      cases hspace
  have hlead : '\\' ∉ q'.takeWhile isSpace := by
    intro hmem
    have hspace : isSpace '\\' = true := List.mem_takeWhile_imp hmem
    cases hspace
  rw [← List.takeWhile_append_dropWhile (p := isSpace) (l := q'), Escape.run_append,
    Escape.run_outside_of_not_mem hlead] at hrun
  have hstop := stop_of_escapedSpan_eq_nil hnil
    (Escape.claims_eq_none hrun (by decide) (by decide))
  cases hstop

theorem scanIdentLike_quoted {s t : List Char} {c : Char} (h : (spanName s).2 = '(' :: t)
    (hc : (t.dropWhile isSpace).head? = some c) (hquote : c = '"' ∨ c = '\'') :
    scanIdentLike s =
      ⟨.function (String.ofList (unescape (spanName s).1)), (spanName s).1 ++ ['(']⟩ := by
  obtain ⟨w, hw⟩ := List.head?_eq_some_iff.1 hc
  rcases hquote with rfl | rfl <;> simp only [scanIdentLike, h, hw] <;> split <;>
    first | rfl | simp_all

/-! ## In front of what halts a text -/

/-- Whether a token is white space. -/
def Token.isWhitespace : Token → Bool
  | .whitespace _ => true
  | _ => false

/-- What begins with `r` does not go on with the lexeme: it is not cut off, and if `r` begins with
white space, it is no white space itself and leaves no escape open that takes it. -/
def Lexeme.EndsBefore (x : Lexeme) (r : List Char) : Prop :=
  x.isCut = false ∧ ∀ c ∈ r.head?, isSpace c = true →
    x.token.isWhitespace = false ∧ (Escape.outside.run x.source).claims c = none

instance (x : Lexeme) (r : List Char) : Decidable (x.EndsBefore r) :=
  @instDecidableAnd _ _ _ (Option.decidableForallMem r.head?)

/-- The last lexeme of a text does not go on in `r`. -/
def EndsBefore (s r : List Char) : Prop := ∀ x ∈ (lexemes s).getLast?, x.EndsBefore r

instance (s r : List Char) : Decidable (EndsBefore s r) :=
  inferInstanceAs (Decidable (∀ x ∈ (lexemes s).getLast?, x.EndsBefore r))

/-- Lexemes that depend on the same condition are the same if they are in either case. -/
theorem Lexeme.ite_congr {q : Lexeme → Prop} {p : Prop} [Decidable p] {x y x' y' : Lexeme}
    (h : q (if p then x else y)) (hpos : p → q x → x' = x) (hneg : ¬ p → q y → y' = y) :
    (if p then x' else y') = if p then x else y := by
  by_cases hp : p
  · rw [if_pos hp] at h ⊢
    rw [if_pos hp, hpos hp h]
  · rw [if_neg hp] at h ⊢
    rw [if_neg hp, hneg hp h]

section EndsBefore

variable {r : List Char}

/-- A lexeme that leaves no backslash open spares what it ends before. -/
theorem Lexeme.EndsBefore.spares {x : Lexeme} (h : x.EndsBefore r) (hr : Inert r)
    (hrun : Escape.outside.run x.source ≠ .opened) : Escape.Spares x.source r := by
  intro c hc
  cases hspace : isSpace c with
  | true => exact (h.2 c hc hspace).2
  | false => exact Escape.claims_eq_none hrun (hr.inName_head c hc) hspace

theorem takeWhile_append_of_dropWhile {p : Char → Bool} {s : List Char} (h : s.dropWhile p ≠ []) :
    (s ++ r).takeWhile p = s.takeWhile p ∧ (s ++ r).dropWhile p = s.dropWhile p ++ r := by
  have hlength : (s.takeWhile p).length ≠ s.length := by
    have hsplit := congrArg List.length (List.takeWhile_append_dropWhile (p := p) (l := s))
    have hpos := List.length_pos_iff.2 h
    rw [List.length_append] at hsplit
    omega
  rw [List.takeWhile_append, List.dropWhile_append, if_neg hlength]
  simp [h]

theorem scanHash_append {s : List Char} (hr : Halted ('#' :: s) r)
    (h : (scanHash s).source = '#' :: s → (scanHash s).EndsBefore r) :
    scanHash (s ++ r) = scanHash s := by
  refine scanHash_halt hr.tail fun hhold => ?_
  have hrun := isCut_scanHash s
  rw [(h hhold).1, eq_comm, decide_eq_false_iff_not] at hrun
  have hspares := (h hhold).spares hr.inert hrun
  rw [hhold] at hspares
  exact (Escape.spares_append (s := ['#']) (by decide)).1 hspares

theorem scanAt_append {s : List Char} (hr : Halted ('@' :: s) r)
    (h : (scanAt s).source = '@' :: s → (scanAt s).EndsBefore r) :
    scanAt (s ++ r) = scanAt s := by
  refine scanAt_halt hr.tail fun hhold => ?_
  have hrun := isCut_scanAt s
  rw [(h hhold).1, eq_comm, decide_eq_false_iff_not] at hrun
  have hspares := (h hhold).spares hr.inert hrun
  rw [hhold] at hspares
  exact (Escape.spares_append (s := ['@']) (by decide)).1 hspares

theorem scanNumeric_append {s : List Char} (hr : Halted s r)
    (h : (scanNumeric s).source = s → (scanNumeric s).EndsBefore r) :
    scanNumeric (s ++ r) = scanNumeric s := by
  refine scanNumeric_halt hr fun hhold => ?_
  have hrun := isCut_scanNumeric s
  rw [(h hhold).1, eq_comm, decide_eq_false_iff_not] at hrun
  have hspares := (h hhold).spares hr.inert hrun
  rwa [hhold] at hspares

theorem scanUrl_append {name q : List Char} (hr : Halted q r)
    (h : (scanUrl (name ++ ['(']) q).source = name ++ '(' :: q →
      (scanUrl (name ++ ['(']) q).isCut = false) :
    scanUrl (name ++ ['(']) (q ++ r) = scanUrl (name ++ ['(']) q := by
  have hlead := List.takeWhile_append_dropWhile (p := isSpace) (l := q)
  have hspan := escapedSpan_append endsUrl .outside (q.dropWhile isSpace)
  have htail := List.takeWhile_append_dropWhile (p := isSpace)
    (l := (escapedSpan endsUrl .outside (q.dropWhile isSpace)).2)
  rcases hrest : (escapedSpan endsUrl .outside (q.dropWhile isSpace)).2.dropWhile isSpace
    with _ | ⟨c, w⟩
  · obtain ⟨hsource, hcut⟩ := isCut_scanUrl name hrest
    rw [h hsource] at hcut
    cases hcut
  have hne : (escapedSpan endsUrl .outside (q.dropWhile isSpace)).2 ≠ [] := by
    intro hnil
    rw [hnil] at hrest
    cases hrest
  have hbody : q.dropWhile isSpace ≠ [] := by
    intro hnil
    rw [hnil] at hne
    exact hne rfl
  have hstop (c : Char) (t : List Char) (ht : c :: t <:+ q.dropWhile isSpace) :
      endsUrl c (t ++ r) = endsUrl c t := by
    by_cases hc : c = '\\'
    · subst hc
      have hline := startsLine_halt (hr.of_suffix (ht.trans (List.dropWhile_suffix _)))
      simp only [endsUrl, hline]
    · simp [endsUrl, hc]
  have happend := escapedSpan_append_of_ne_nil hstop hne
  have hfront := takeWhile_append_of_dropWhile (r := r) hbody
  have hback := takeWhile_append_of_dropWhile (p := isSpace) (r := r)
    (s := (escapedSpan endsUrl .outside (q.dropWhile isSpace)).2) (by simp [hrest])
  simp only [scanUrl, hfront, happend, hback, hrest, List.cons_append] at h ⊢
  split
  · rfl
  · rename_i hc
    rw [if_neg hc] at h
    -- What breaks the url is closed, for else it would be all of the text.
    have hjunk : (spanBadUrl false w).2 ≠ [] := by
      intro hnil
      have hwhole := spanBadUrl_append false w
      rw [hnil, List.append_nil] at hwhole
      rw [hrest] at htail
      simp only [hnil, hwhole, List.take_nil, List.append_nil, Lexeme.isCut,
        String.toList_ofList, Bool.not_eq_false'] at h
      have hsuffix := h (by
        conv => rhs; rw [← hlead, ← hspan, ← htail]
        simp)
      rw [not_isSuffixOf_append (c := c) (by simp) hc] at hsuffix
      cases hsuffix
    have hjunk' := spanBadUrl_append_of_ne_nil hjunk r
    rw [hjunk', List.take_append_of_le_length (List.length_pos_iff.2 hjunk)]

theorem scanIdentLike_append {s : List Char} (hr : Halted s r)
    (h : (scanIdentLike s).source = s → (scanIdentLike s).EndsBefore r) :
    scanIdentLike (s ++ r) = scanIdentLike s := by
  have happend := spanName_append s
  have hname : spanName (s ++ r) = ((spanName s).1, (spanName s).2 ++ r) := by
    refine spanName_halt hr fun hnil => ?_
    rw [hnil, List.append_nil] at happend
    rw [scanIdentLike_ident (by simp [hnil]), happend] at h
    have hrun : Escape.outside.run s ≠ .opened := by simpa [Lexeme.isCut] using (h rfl).1
    exact (h rfl).spares hr.inert hrun
  by_cases hparen : (spanName s).2.head? = some '('
  · obtain ⟨q, hq⟩ : ∃ q, (spanName s).2 = '(' :: q := List.head?_eq_some_iff.1 hparen
    have hq' : (spanName (s ++ r)).2 = '(' :: (q ++ r) := by rw [hname, hq, List.cons_append]
    have hhead {c : Char} (hc : (q.dropWhile isSpace).head? = some c) :
        ((q ++ r).dropWhile isSpace).head? = some c := by
      have hne : q.dropWhile isSpace ≠ [] := by
        intro hnil
        rw [hnil] at hc
        cases hc
      rw [(takeWhile_append_of_dropWhile hne).2, List.head?_append, hc]
      rfl
    rw [hq] at happend
    have hrest : Halted q r := hr.of_suffix ⟨(spanName s).1 ++ ['('], by simpa using happend⟩
    cases hurl : isUrlName (unescape (spanName s).1) with
    | false =>
      rw [scanIdentLike_function hq hurl, scanIdentLike_function hq' (by rwa [hname]), hname]
    | true =>
      cases hfront : (q.dropWhile isSpace).head? with
      | none =>
        -- Nothing but white space is behind the bracket, and so it is not closed.
        have hbody : q.dropWhile isSpace = [] := List.head?_eq_none_iff.1 hfront
        obtain ⟨hsource, hcut⟩ := isCut_scanUrl (spanName s).1 (q := q)
          (by rw [hbody]; rfl)
        rw [scanIdentLike_url hq hurl (by simp [hbody])] at h
        rw [(h (hsource.trans happend)).1] at hcut
        cases hcut
      | some c =>
        by_cases hquote : c = '"' ∨ c = '\''
        · rw [scanIdentLike_quoted hq hfront hquote,
            scanIdentLike_quoted hq' (hhead hfront) hquote, hname]
        · rw [not_or] at hquote
          have hunquoted : ∀ d ∈ (q.dropWhile isSpace).head?, d ≠ '"' ∧ d ≠ '\'' := by
            rw [hfront]
            rintro d ⟨⟩
            exact hquote
          have hunquoted' : ∀ d ∈ ((q ++ r).dropWhile isSpace).head?, d ≠ '"' ∧ d ≠ '\'' := by
            rw [hhead hfront]
            rintro d ⟨⟩
            exact hquote
          rw [scanIdentLike_url hq hurl hunquoted] at h ⊢
          rw [scanIdentLike_url hq' (by rwa [hname]) hunquoted', hname]
          exact scanUrl_append hrest fun hsource => (h (by rwa [happend] at hsource)).1
  · have hparen' : (spanName (s ++ r)).2.head? ≠ some '(' := by
      rw [hname]
      rcases hrest : (spanName s).2 with _ | ⟨b, t⟩
      · exact hr.inert.head_ne (by simp)
      · rw [hrest] at hparen
        exact hparen
    rw [scanIdentLike_ident hparen, scanIdentLike_ident hparen', hname]

/-- White space that ends before `r` takes no more of it. -/
theorem takeWhile_isSpace_append {a : Char} {s : List Char}
    (h : (scan a s).source = a :: s → (scan a s).EndsBefore r) (ha : isSpace a = true) :
    (a :: (s ++ r)).takeWhile isSpace = (a :: s).takeWhile isSpace := by
  by_cases hnil : (a :: s).dropWhile isSpace = []
  · have hwhole := List.takeWhile_append_dropWhile (p := isSpace) (l := a :: s)
    rw [hnil, List.append_nil] at hwhole
    simp only [scan, ha, if_true] at h
    refine takeWhile_append_of_head (fun c hc => ?_) (a :: s)
    rw [← Bool.not_eq_true]
    intro hspace
    cases ((h hwhole).2 c hc hspace).1
  · exact (takeWhile_append_of_dropWhile hnil).1

/-- The lexeme at the front of a text is the same in front of what halts the text. -/
theorem scan_append {a : Char} {s : List Char} (hr : Halted (a :: s) r)
    (h : (scan a s).source = a :: s → (scan a s).EndsBefore r) :
    scan a (s ++ r) = scan a s := by
  have hspan := takeWhile_isSpace_append h
  have hself := scan_halt (a := a) (s := s) (r := []) (Halts.halted (by rintro c ⟨⟩) _)
  rw [List.append_nil] at hself
  rw [hself] at h ⊢
  rw [scan_halt hr]
  refine Lexeme.ite_congr (q := fun x => x.source = a :: s → x.EndsBefore r) h
    (fun hspace _ => by rw [hspan hspace]) fun _ h => ?_
  refine Lexeme.ite_congr (q := fun x => x.source = a :: s → x.EndsBefore r) h
    (fun hopen h => ?_) fun _ h => ?_
  · obtain ⟨rfl, hstar⟩ := hopen
    obtain ⟨t, rfl⟩ := List.head?_eq_some_iff.1 hstar
    exact scanComment_append (fun hsource => (h hsource).1) r
  refine Lexeme.ite_congr (q := fun x => x.source = a :: s → x.EndsBefore r) h
    (fun hquote h => scanString_append hquote (fun hsource => (h hsource).1) r) fun _ h => ?_
  refine Lexeme.ite_congr (q := fun x => x.source = a :: s → x.EndsBefore r) h
    (fun hhash h => ?_) fun _ h => ?_
  · subst hhash
    exact scanHash_append hr h
  refine Lexeme.ite_congr (q := fun x => x.source = a :: s → x.EndsBefore r) h
    (fun hat h => ?_) fun _ h => ?_
  · subst hat
    exact scanAt_append hr h
  refine Lexeme.ite_congr (q := fun x => x.source = a :: s → x.EndsBefore r) h
    (fun _ h => scanNumeric_append (s := a :: s) hr h) fun _ h => ?_
  refine Lexeme.ite_congr (q := fun x => x.source = a :: s → x.EndsBefore r) h
    (fun _ _ => rfl) fun _ h => ?_
  refine Lexeme.ite_congr (q := fun x => x.source = a :: s → x.EndsBefore r) h
    (fun _ _ => rfl) fun _ h => ?_
  exact Lexeme.ite_congr (q := fun x => x.source = a :: s → x.EndsBefore r) h
    (fun _ h => scanIdentLike_append (s := a :: s) hr h) fun _ _ => rfl

end EndsBefore

theorem getLast?_cons_of_mem {x y : Lexeme} {xs : List Lexeme} (h : y ∈ xs.getLast?) :
    y ∈ (x :: xs).getLast? := by
  cases xs with
  | nil => cases h
  | cons z xs => rwa [List.getLast?_cons_cons]

/-- A text has the same lexemes in front of what halts it and does not go on with its last one. -/
theorem lexemes_append_of_endsBefore {s r : List Char} (hr : Halted s r) (h : EndsBefore s r) :
    lexemes (s ++ r) = lexemes s ++ lexemes r := by
  match s with
  | [] => rfl
  | a :: s =>
    obtain ⟨t, ht, hlen, hcons⟩ := exists_lexemes_cons a s
    rw [EndsBefore, hcons] at h
    -- A lexeme that takes the whole text is the last one.
    have hends : (scan a s).source = a :: s → (scan a s).EndsBefore r := by
      intro hwhole
      rw [hwhole] at ht
      obtain rfl : t = [] := List.append_right_eq_self.1 ht.symm
      exact h _ rfl
    have hrest := lexemes_append_of_endsBefore (hr.of_suffix ⟨_, ht.symm⟩)
      (fun x hx => h x (getLast?_cons_of_mem hx))
    rw [lexemes_cons_append ht (scan_append hr hends), hcons, List.cons_append, hrest]
termination_by s.length
decreasing_by exact hlen

/-- Nothing more, or a character that no lexeme goes on with. -/
structure Bars (r : List Char) : Prop where
  halts : Halts r
  space : ∀ c ∈ r.head?, isSpace c = false

/-- A text that ends outside its lexemes has the same ones in front of what bars it. -/
theorem lexemes_append_of_endsOutside {s r : List Char} (h : EndsOutside s) (hr : Bars r) :
    lexemes (s ++ r) = lexemes s ++ lexemes r := by
  refine lexemes_append_of_endsBefore (hr.halts.halted s) fun x hx => ⟨h x hx, ?_⟩
  intro c hc hspace
  rw [hr.space c hc] at hspace
  cases hspace

end MailCss.Css
