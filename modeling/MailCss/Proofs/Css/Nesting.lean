import MailCss.Css.TokenTree

/-!
# Lexemes whose brackets match

`Nested xs ts` says that the lexemes `xs` are those of the trees `ts`, all of whose groups are
closed. A builder that reads such lexemes adds the trees to where it is and comes back to the
groups that it had open, so what is read behind them does not depend on them.

Main statements:
* `nested_of_brackets`: lexemes nest if a stack of the brackets that are owed runs empty;
* `foldl_feed_of_nested`: a builder takes nested lexemes for their trees;
* `ofLexemes_append_of_nested`: nested lexemes are cut off from those behind them.
-/

namespace MailCss.Css

/-- Whether a token is a closing bracket. -/
def Token.isCloser : Token → Bool
  | .parenClose | .squareClose | .curlyClose => true
  | _ => false

/-- A token that closes a group is a closing bracket. -/
theorem Token.isCloser_of_closer? {t u : Token} (h : t.closer? = some u) : u.isCloser = true := by
  cases t <;> cases h <;> rfl

/-- The lexemes of trees whose groups are all closed. -/
inductive Nested : List Lexeme → List TokenTree → Prop where
  | nil : Nested [] []
  | leaf {x xs ts} : x.token.closer? = none → x.token.isCloser = false → Nested xs ts →
      Nested (x :: xs) (.leaf x :: ts)
  | group {x ys y xs us ts} : x.token.closer? = some y.token → Nested ys us → Nested xs ts →
      Nested (x :: (ys ++ y :: xs)) (.group x us y.source :: ts)

/-- Whether the brackets among lexemes match, where the tokens on the stack are still owed. -/
def brackets : List Token → List Lexeme → Bool
  | owed, [] => owed.isEmpty
  | owed, x :: xs =>
    match x.token.closer? with
    | some t => brackets (t :: owed) xs
    | none =>
      if x.token.isCloser then
        match owed with
        | [] => false
        | t :: owed => t == x.token && brackets owed xs
      else brackets owed xs

namespace Nested

variable {xs ys : List Lexeme} {ts us : List TokenTree}

/-- Nested lexemes in a row. -/
theorem append (hx : Nested xs ts) (hy : Nested ys us) : Nested (xs ++ ys) (ts ++ us) := by
  induction hx with
  | nil => exact hy
  | leaf hopen hclose _ ih => exact .leaf hopen hclose ih
  | @group x zs z xs _ _ hclose hin _ _ ih =>
    have h : Nested (x :: (zs ++ z :: (xs ++ ys))) _ := .group hclose hin ih
    simpa using h

/-- The text of nested lexemes is that of their trees. -/
theorem sourceAll_eq (h : Nested xs ts) : TokenTree.sourceAll ts = xs.flatMap Lexeme.source := by
  induction h with
  | nil => rfl
  | leaf _ _ _ ih => simp [TokenTree.sourceAll, TokenTree.source, ih]
  | group _ _ _ ihin ih => simp [TokenTree.sourceAll, TokenTree.source, ihin, ih]

end Nested

/-! ## Brackets that match -/

/-- What stands in front of the bracket that is owed first, and what stands behind it. -/
theorem exists_nested_of_brackets {owed : List Token} {xs : List Lexeme}
    (h : brackets owed xs = true) :
    match owed with
    | [] => ∃ ts, Nested xs ts
    | t :: owed => ∃ ys y zs ts, xs = ys ++ y :: zs ∧ Nested ys ts ∧ y.token = t ∧
        brackets owed zs = true := by
  match xs, h with
  | [], h =>
    cases owed with
    | nil => exact ⟨[], .nil⟩
    | cons t owed => cases h
  | x :: xs, h =>
    unfold brackets at h
    cases hopen : x.token.closer? with
    | none =>
      rw [hopen] at h
      cases hclose : x.token.isCloser with
      | false =>
        rw [hclose] at h
        have ih := exists_nested_of_brackets h
        cases owed with
        | nil =>
          obtain ⟨ts, hts⟩ := ih
          exact ⟨_, .leaf hopen hclose hts⟩
        | cons t owed =>
          obtain ⟨ys, y, zs, ts, rfl, hts, hy, hzs⟩ := ih
          exact ⟨x :: ys, y, zs, _, rfl, .leaf hopen hclose hts, hy, hzs⟩
      | true =>
        rw [hclose] at h
        cases owed with
        | nil => cases h
        | cons t owed =>
          have h' : t = x.token ∧ brackets owed xs = true := by simpa using h
          exact ⟨[], x, xs, [], rfl, .nil, h'.1.symm, h'.2⟩
    | some t =>
      rw [hopen] at h
      -- The group that `x` opens ends at `y`, and what is owed stays owed behind it.
      obtain ⟨ys, y, zs, us, rfl, hus, hy, hzs⟩ := exists_nested_of_brackets h
      have hgroup : x.token.closer? = some y.token := by rw [hopen, hy]
      have hlen : zs.length < (x :: (ys ++ y :: zs)).length := by
        simp only [List.length_cons, List.length_append]
        omega
      have ih := exists_nested_of_brackets hzs
      cases owed with
      | nil =>
        obtain ⟨ts, hts⟩ := ih
        exact ⟨_, .group hgroup hus hts⟩
      | cons u owed =>
        obtain ⟨ys', y', zs', ts, rfl, hts, hy', hzs'⟩ := ih
        exact ⟨x :: (ys ++ y :: ys'), y', zs', _, by simp, .group hgroup hus hts, hy', hzs'⟩
termination_by xs.length

/-- Lexemes nest if nothing is owed before and behind them. -/
theorem nested_of_brackets {xs : List Lexeme} (h : brackets [] xs = true) :
    ∃ ts, Nested xs ts :=
  exists_nested_of_brackets h

/-! ## Reading nested lexemes -/

namespace Builder

theorem closes_eq_false {b : Builder} {t : Token} (h : t.isCloser = false) :
    b.closes t = false := by
  unfold closes
  split
  · rfl
  · rename_i f fs hf
    simp only [beq_eq_false_iff_ne]
    intro hc
    rw [Token.isCloser_of_closer? hc] at h
    cases h

theorem isCloser_of_isSome_closer? {t : Token} (h : t.closer?.isSome = true) :
    t.isCloser = false := by
  cases t <;> first | rfl | cases h

/-- A builder takes nested lexemes for their trees. -/
theorem foldl_feed_of_nested {xs : List Lexeme} {ts : List TokenTree} (h : Nested xs ts)
    (b : Builder) : xs.foldl feed b = { b with done := ts.reverse ++ b.done } := by
  induction h generalizing b with
  | nil => rfl
  | leaf hopen hclose _ ih =>
    rw [List.foldl_cons, feed, closes_eq_false hclose, hopen]
    simp [ih]
  | @group x ys y xs us ts hclose _ _ ihin ih =>
    have hopen : x.token.closer?.isSome = true := by rw [hclose]; rfl
    have hx : b.feed x = { frames := ⟨x, b.done⟩ :: b.frames, done := [] } := by
      rw [feed, closes_eq_false (isCloser_of_isSome_closer? hopen), hopen]
      rfl
    rw [List.foldl_cons, hx, List.foldl_append, ihin, List.foldl_cons]
    have hy : ∀ done, feed { frames := ⟨x, b.done⟩ :: b.frames, done := done } y =
        { b with done := .group x done.reverse y.source :: b.done } := by
      intro done
      simp [feed, closes, hclose, close]
    rw [hy, ih]
    simp

/-! What a builder has on its outermost level stays below what it reads. -/

/-- Frames with trees put below everything on the outermost level. -/
def framesAbove (below : List TokenTree) : List Frame → List Frame
  | [] => []
  | [f] => [{ f with before := f.before ++ below }]
  | f :: g :: fs => f :: framesAbove below (g :: fs)

/-- A builder with trees put below everything on its outermost level. -/
def above (below : List TokenTree) (b : Builder) : Builder :=
  match b.frames with
  | [] => { b with done := b.done ++ below }
  | f :: fs => { b with frames := framesAbove below (f :: fs) }

variable (below : List TokenTree)

theorem feed_above (b : Builder) (x : Lexeme) :
    (b.above below).feed x = (b.feed x).above below := by
  obtain ⟨_ | ⟨f, fs⟩, done⟩ := b
  · by_cases hopen : x.token.closer?.isSome = true
    · simp [above, feed, closes, framesAbove, hopen]
    · simp [above, feed, closes, hopen]
  · by_cases hclose : f.opener.token.closer? = some x.token
    · cases fs <;> simp [above, feed, closes, framesAbove, hclose, close]
    · by_cases hopen : x.token.closer?.isSome = true
      · cases fs <;> simp [above, feed, closes, framesAbove, hclose, hopen]
      · cases fs <;> simp [above, feed, closes, framesAbove, hclose, hopen]

theorem foldl_feed_above (b : Builder) (xs : List Lexeme) :
    xs.foldl feed (b.above below) = (xs.foldl feed b).above below := by
  induction xs generalizing b with
  | nil => rfl
  | cons x xs ih => rw [List.foldl_cons, List.foldl_cons, feed_above, ih]

theorem finishWith_above (f : Frame) (fs : List Frame) (done : List TokenTree) :
    finishWith done (framesAbove below (f :: fs)) =
      below.reverse ++ finishWith done (f :: fs) := by
  induction fs generalizing f done with
  | nil => simp [framesAbove, finishWith]
  | cons g fs ih =>
    rw [framesAbove, finishWith, ih]
    rfl

theorem finish_above (b : Builder) : (b.above below).finish = below.reverse ++ b.finish := by
  obtain ⟨_ | ⟨f, fs⟩, done⟩ := b
  · simp [above, finish, finishWith]
  · exact finishWith_above below f fs done

end Builder

namespace TokenTree

/-- Nested lexemes are cut off from those behind them. -/
theorem ofLexemes_append_of_nested {xs : List Lexeme} {ts : List TokenTree} (h : Nested xs ts)
    (ys : List Lexeme) : ofLexemes (xs ++ ys) = ts ++ ofLexemes ys := by
  have habove : ({ done := ts.reverse } : Builder) = Builder.above ts.reverse {} := by
    simp [Builder.above]
  rw [ofLexemes, List.foldl_append, Builder.foldl_feed_of_nested h]
  simp only [List.append_nil]
  rw [habove, Builder.foldl_feed_above, Builder.finish_above, List.reverse_reverse, ofLexemes]

/-- The trees of nested lexemes. -/
theorem ofLexemes_of_nested {xs : List Lexeme} {ts : List TokenTree} (h : Nested xs ts) :
    ofLexemes xs = ts := by
  have happend := ofLexemes_append_of_nested h []
  rw [List.append_nil] at happend
  rw [happend]
  exact List.append_nil ts

end TokenTree

end MailCss.Css
