import MailCss.Proofs.Css.Trees

/-!
# Trees laid flat

Nesting lexemes into trees only arranges them: a text's trees, laid flat again, are its lexemes in
their order.

Main statement: `TokenTree.flatAll_ofText`.
-/

namespace MailCss.Css

/-- The closing lexeme of a group that the token opens, by its text, which is empty if the group is
not closed. -/
def Token.closing (t : Token) : List Char → List Lexeme
  | [] => []
  | c :: s => [⟨t.closer?.getD t, c :: s⟩]

namespace TokenTree

mutual

/-- The lexemes of a tree. -/
def flat : TokenTree → List Lexeme
  | .leaf x => [x]
  | .group x inner closer => x :: (flatAll inner ++ x.token.closing closer)

/-- The lexemes of several trees. -/
def flatAll : List TokenTree → List Lexeme
  | [] => []
  | t :: ts => t.flat ++ flatAll ts

end

@[simp] theorem flatAll_append (ts us : List TokenTree) :
    flatAll (ts ++ us) = flatAll ts ++ flatAll us := by
  induction ts with
  | nil => rfl
  | cons t ts ih => simp [flatAll, ih]

theorem flatMap_closing (t : Token) (closer : List Char) :
    (t.closing closer).flatMap Lexeme.source = closer := by
  cases closer <;> simp [Token.closing]

mutual

/-- The text of a tree is that of its lexemes. -/
theorem flatMap_flat : ∀ t : TokenTree, t.flat.flatMap Lexeme.source = t.source
  | .leaf x => by simp [flat, source]
  | .group x inner closer => by
    simp [flat, source, flatMap_flatAll inner, flatMap_closing]

theorem flatMap_flatAll : ∀ ts : List TokenTree,
    (flatAll ts).flatMap Lexeme.source = sourceAll ts
  | [] => rfl
  | t :: ts => by simp [flatAll, sourceAll, flatMap_flat t, flatMap_flatAll ts]

end

end TokenTree

namespace Builder

open TokenTree

/-- The lexemes of open groups and of the trees on their levels. -/
def frameFlat : List Frame → List Lexeme
  | [] => []
  | f :: fs => frameFlat fs ++ (flatAll f.before.reverse ++ [f.opener])

/-- The lexemes that a builder has read. -/
def flat (b : Builder) : List Lexeme := frameFlat b.frames ++ flatAll b.done.reverse

/-- A builder reads one lexeme more. -/
theorem flat_feed (b : Builder) {x : Lexeme} (hx : x.source ≠ []) :
    (b.feed x).flat = b.flat ++ [x] := by
  obtain ⟨frames, done⟩ := b
  simp only [feed]
  split
  · rename_i hcloses
    cases frames with
    | nil => cases hcloses
    | cons f fs =>
      have hcloser : f.opener.token.closer? = some x.token := by simpa [closes] using hcloses
      have hclosing : f.opener.token.closing x.source = [x] := by
        obtain ⟨c, s, hs⟩ := List.exists_cons_of_ne_nil hx
        rw [hs, Token.closing, hcloser, ← hs]
        rfl
      simp [close, Builder.flat, frameFlat, flatAll, TokenTree.flat, hclosing]
  · split
    · simp [Builder.flat, frameFlat, flatAll]
    · simp [Builder.flat, flatAll, TokenTree.flat]

theorem flat_foldl (b : Builder) {xs : List Lexeme} (hxs : ∀ x ∈ xs, x.source ≠ []) :
    (xs.foldl feed b).flat = b.flat ++ xs := by
  induction xs generalizing b with
  | nil => simp
  | cons x xs ih =>
    rw [List.foldl_cons, ih _ fun y hy => hxs y (List.mem_cons_of_mem _ hy),
      flat_feed b (hxs x List.mem_cons_self)]
    simp

theorem flatAll_finishWith (done : List TokenTree) (fs : List Frame) :
    flatAll (finishWith done fs) = frameFlat fs ++ flatAll done.reverse := by
  induction fs generalizing done with
  | nil => simp [finishWith, frameFlat]
  | cons f fs ih =>
    simp [finishWith, ih, frameFlat, flatAll, TokenTree.flat, Token.closing]

end Builder

/-- The lexemes of a text are those of its token trees. -/
theorem TokenTree.flatAll_ofText (s : List Char) : flatAll (ofText s) = lexemes s := by
  have hsource : ∀ x ∈ lexemes s, x.source ≠ [] :=
    fun _ hx => (isRead_of_mem_lexemes hx).source_ne_nil
  have h := Builder.flat_foldl {} hsource
  rw [ofText, ofLexemes, Builder.finish, Builder.flatAll_finishWith]
  simpa [Builder.flat, Builder.frameFlat, flatAll] using h

end MailCss.Css
