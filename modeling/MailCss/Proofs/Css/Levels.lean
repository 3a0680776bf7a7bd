import MailCss.Css.Lossless

/-!
# Levels of lexemes

The trees of a text read from front to back. A level is the outermost one or the inside of a group;
it ends in front of the closing token of the group or where the lexemes end. `Levels stop xs ts ys`
says that a level which the token `stop` closes begins with the lexemes `xs`, has the trees `ts` and
ends in front of the lexemes `ys`. A reader that goes into a group when its opening lexeme comes,
and out of it at the closing token, finds the trees that a builder makes.

Main statements: `Levels.finish_foldl` (a builder makes the trees of the level it stands on) and
`levels_ofText` (the trees of a text are those of its outermost level).
-/

namespace MailCss.Css

/-- The lexemes `xs` on a level that `stop` closes make the trees `ts`, and the level ends in front
of `ys`. -/
inductive Levels : Option Token → List Lexeme → List TokenTree → List Lexeme → Prop where
  | ended {stop} : Levels stop [] [] []
  | stopped {stop x xs} : stop = some x.token → Levels stop (x :: xs) [] (x :: xs)
  | leaf {stop x xs ts ys} : stop ≠ some x.token → x.token.closer? = none → Levels stop xs ts ys →
      Levels stop (x :: xs) (.leaf x :: ts) ys
  /-- A group with its closing bracket. -/
  | closed {stop x t xs us y zs ts ys} : stop ≠ some x.token → x.token.closer? = some t →
      Levels (some t) xs us (y :: zs) → y.token = t → Levels stop zs ts ys →
      Levels stop (x :: xs) (.group x us y.source :: ts) ys
  /-- A group that the end of the lexemes cuts off. -/
  | cut {stop x t xs us} : stop ≠ some x.token → x.token.closer? = some t →
      Levels (some t) xs us [] → Levels stop (x :: xs) [.group x us []] []

namespace Levels

variable {stop : Option Token} {xs ys : List Lexeme} {ts : List TokenTree}

/-- The trees of a level have the lexemes in front of its end. -/
theorem exists_append (h : Levels stop xs ts ys) :
    ∃ front, xs = front ++ ys ∧ front.flatMap Lexeme.source = TokenTree.sourceAll ts := by
  induction h with
  | ended => exact ⟨[], rfl, rfl⟩
  | stopped => exact ⟨[], rfl, rfl⟩
  | @leaf _ x _ _ _ _ _ _ ih =>
    obtain ⟨front, rfl, hfront⟩ := ih
    exact ⟨x :: front, rfl, by simp [TokenTree.sourceAll, TokenTree.source, hfront]⟩
  | @closed _ x _ _ _ y _ _ _ _ _ _ _ _ ihin ih =>
    obtain ⟨inside, rfl, hinside⟩ := ihin
    obtain ⟨front, rfl, hfront⟩ := ih
    refine ⟨x :: (inside ++ y :: front), by simp, ?_⟩
    simp [TokenTree.sourceAll, TokenTree.source, hinside, hfront]
  | @cut _ x _ _ _ _ _ _ ih =>
    obtain ⟨inside, rfl, hinside⟩ := ih
    exact ⟨x :: inside, by simp, by simp [TokenTree.sourceAll, TokenTree.source, hinside]⟩

/-- A level ends with the lexemes or in front of its closing token. -/
theorem end_eq (h : Levels stop xs ts ys) :
    ys = [] ∨ ∃ y zs, ys = y :: zs ∧ stop = some y.token := by
  induction h with
  | ended => exact .inl rfl
  | stopped hstop => exact .inr ⟨_, _, rfl, hstop⟩
  | leaf _ _ _ ih => exact ih
  | closed _ _ _ _ _ _ ih => exact ih
  | cut => exact .inl rfl

/-- The outermost level has all lexemes. -/
theorem eq_nil (h : Levels none xs ts ys) : ys = [] := by
  rcases h.end_eq with rfl | ⟨_, _, -, hstop⟩
  · rfl
  · cases hstop

/-- The first tree of a level is a leaf, or a group whose inside is a level. -/
theorem leaf_or_group {x : Lexeme} {t : TokenTree} (h : Levels stop (x :: xs) (t :: ts) ys) :
    (x.token.closer? = none ∧ t = .leaf x ∧ Levels stop xs ts ys) ∨
      ∃ tok us zs, x.token.closer? = some tok ∧ Levels (some tok) xs us zs ∧
        t = .group x us ((zs.take 1).flatMap Lexeme.source) ∧ Levels stop (zs.drop 1) ts ys := by
  cases h with
  | leaf _ hopen h => exact .inl ⟨hopen, rfl, h⟩
  | closed _ hopen hin _ h => exact .inr ⟨_, _, _, hopen, hin, by simp, h⟩
  | cut _ hopen hin => exact .inr ⟨_, _, [], hopen, hin, rfl, .ended⟩

/-- In front of the closing token of a level there are no trees. -/
theorem stop_ne {x : Lexeme} {t : TokenTree} (h : Levels stop (x :: xs) (t :: ts) ys) :
    stop ≠ some x.token := by
  cases h with
  | leaf hne | closed hne | cut hne => exact hne

/-- Lexemes on a level make trees. -/
theorem exists_levels (stop : Option Token) (xs : List Lexeme) : ∃ ts ys, Levels stop xs ts ys := by
  match xs with
  | [] => exact ⟨[], [], .ended⟩
  | x :: xs =>
    by_cases hstop : stop = some x.token
    · exact ⟨[], _, .stopped hstop⟩
    cases hopen : x.token.closer? with
    | none =>
      obtain ⟨ts, ys, h⟩ := exists_levels stop xs
      exact ⟨_, _, .leaf hstop hopen h⟩
    | some t =>
      obtain ⟨us, ys, hin⟩ := exists_levels (some t) xs
      rcases hin.end_eq with rfl | ⟨y, zs, rfl, hy⟩
      · exact ⟨_, _, .cut hstop hopen hin⟩
      · obtain ⟨inside, hxs, -⟩ := hin.exists_append
        have hlen : zs.length < (x :: xs).length := by
          rw [hxs]
          simp only [List.length_cons, List.length_append]
          omega
        obtain ⟨ts, ys, h⟩ := exists_levels stop zs
        exact ⟨_, _, .closed hstop hopen hin (Option.some.inj hy).symm h⟩
termination_by xs.length

/-- A builder whose innermost group `stop` closes makes the trees of the level and goes on where
the level ends. -/
theorem finish_foldl (h : Levels stop xs ts ys) {frames : List Frame}
    (hframes : ∀ done t, Builder.closes ⟨frames, done⟩ t = true ↔ stop = some t)
    (done : List TokenTree) :
    (xs.foldl Builder.feed ⟨frames, done⟩).finish =
      (ys.foldl Builder.feed ⟨frames, ts.reverse ++ done⟩).finish := by
  induction h generalizing frames done with
  | ended => rfl
  | stopped => rfl
  | @leaf stop x _ _ _ hstop hopen _ ih =>
    have hx : Builder.feed ⟨frames, done⟩ x = ⟨frames, .leaf x :: done⟩ := by
      rw [Builder.feed, if_neg (fun hc => hstop ((hframes _ _).1 hc)), hopen]
      rfl
    rw [List.foldl_cons, hx, ih hframes]
    simp
  | @closed stop x t xs us y zs ts ys hstop hopen _ hy _ ihin ih =>
    have hx : Builder.feed ⟨frames, done⟩ x = ⟨⟨x, done⟩ :: frames, []⟩ := by
      rw [Builder.feed, if_neg (fun hc => hstop ((hframes _ _).1 hc)), hopen]
      rfl
    have hy' (inner : List TokenTree) : Builder.feed ⟨⟨x, done⟩ :: frames, inner⟩ y =
        ⟨frames, .group x inner.reverse y.source :: done⟩ := by
      simp [Builder.feed, Builder.closes, Builder.close, hopen, hy]
    rw [List.foldl_cons, hx, ihin (by simp [Builder.closes, hopen]), List.foldl_cons, hy',
      ih hframes]
    simp
  | @cut stop x t xs us hstop hopen _ ih =>
    have hx : Builder.feed ⟨frames, done⟩ x = ⟨⟨x, done⟩ :: frames, []⟩ := by
      rw [Builder.feed, if_neg (fun hc => hstop ((hframes _ _).1 hc)), hopen]
      rfl
    rw [List.foldl_cons, hx, ih (by simp [Builder.closes, hopen])]
    simp [Builder.finish, Builder.finishWith]

end Levels

/-- The trees of a text are those of its outermost level. -/
theorem levels_ofText (s : List Char) : Levels none (lexemes s) (TokenTree.ofText s) [] := by
  obtain ⟨ts, ys, h⟩ := Levels.exists_levels none (lexemes s)
  obtain rfl := h.eq_nil
  have hframes : ∀ done t, Builder.closes ⟨[], done⟩ t = true ↔ none = some t := by
    simp [Builder.closes]
  have htrees := h.finish_foldl hframes []
  have hts : TokenTree.ofText s = ts := by
    rw [TokenTree.ofText, TokenTree.ofLexemes, htrees]
    simp [Builder.finish, Builder.finishWith]
  rwa [hts]

end MailCss.Css
