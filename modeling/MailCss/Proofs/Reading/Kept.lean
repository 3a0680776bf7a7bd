import MailCss.Proofs.Css.Flat
import MailCss.Proofs.Reading.Params
import MailCss.Proofs.Text.Trim

/-!
# What parameters keep of a prelude

The parameters of an at-rule keep the lexemes of its prelude in their order, but a comment leaves
nothing behind where it stood, and white space becomes a space, which is left out where a space is in
front of it and at the end (`keptFrom`). The parameters are the text of these lexemes, trimmed.

Main statements: `toList_paramsText`, and `significant_keptFrom`: all that is neither white space nor
a comment is kept.
-/

namespace MailCss

open Css
open Css.TokenTree (flatAll)

/-! ## What parameters keep -/

/-- The lexemes that are neither comments nor white space. -/
def significant (xs : List Lexeme) : List Lexeme := xs.filter fun x => !x.token.isSkipped

@[simp] theorem significant_append (xs ys : List Lexeme) :
    significant (xs ++ ys) = significant xs ++ significant ys := by
  simp [significant]

/-- The lexeme that white space is kept as. -/
def keptSpace : Lexeme := ⟨.whitespace " ", [' ']⟩

/-- The lexemes that the parameters keep of the trees of a prelude, where `spaced` says whether they
have a space or nothing in front of them. White space that ends a prelude is not kept. -/
def keptFrom (spaced : Bool) : List TokenTree → List Lexeme
  | [] => []
  | t :: ts =>
    match t.token with
    | .comment _ => keptFrom spaced ts
    | .whitespace _ =>
      if spaced || ts.all (·.token.isSkipped) then keptFrom true ts else keptSpace :: keptFrom true ts
    | _ => t.flat ++ keptFrom (t.source.getLast? = some ' ') ts

/-- The text that the parameters keep. -/
def keptText (spaced : Bool) (ts : List TokenTree) : List Char :=
  (keptFrom spaced ts).flatMap Lexeme.source

/-- A token is a comment, white space, or significant. -/
theorem Css.Token.isSkipped_cases (t : Token) :
    (∃ text, t = .comment text) ∨ (∃ text, t = .whitespace text) ∨ t.isSkipped = false := by
  cases t <;> simp [Token.isSkipped]

section Kept

variable {spaced : Bool} {ts : List TokenTree} {t : TokenTree}

theorem keptFrom_comment {text : String} (ht : t.token = .comment text) :
    keptFrom spaced (t :: ts) = keptFrom spaced ts := by
  rw [keptFrom, ht]

theorem keptFrom_whitespace {text : String} (ht : t.token = .whitespace text) :
    keptFrom spaced (t :: ts) =
      if spaced || ts.all (·.token.isSkipped) then keptFrom true ts
      else keptSpace :: keptFrom true ts := by
  rw [keptFrom, ht]

theorem keptFrom_cons (ht : t.token.isSkipped = false) :
    keptFrom spaced (t :: ts) = t.flat ++ keptFrom (t.source.getLast? = some ' ') ts := by
  rw [keptFrom]
  split <;> simp_all [Token.isSkipped]

theorem keptFrom_of_isSkipped (h : ts.all (·.token.isSkipped) = true) :
    keptFrom spaced ts = [] := by
  induction ts generalizing spaced with
  | nil => rfl
  | cons t ts ih =>
    rw [List.all_cons, Bool.and_eq_true] at h
    rcases t.token.isSkipped_cases with ⟨text, ht⟩ | ⟨text, ht⟩ | ht
    · rw [keptFrom_comment ht, ih h.2]
    · rw [keptFrom_whitespace ht, h.2, Bool.or_true, if_pos rfl, ih h.2]
    · rw [ht] at h
      cases h.1

theorem keptText_cons (ht : t.token.isSkipped = false) :
    keptText spaced (t :: ts) = t.source ++ keptText (t.source.getLast? = some ' ') ts := by
  rw [keptText, keptFrom_cons ht, List.flatMap_append, TokenTree.flatMap_flat, keptText]

/-- Nothing significant of a prelude is lost in its parameters, and nothing is added. -/
theorem significant_keptFrom (hts : ∀ t ∈ ts, t.Sound) :
    significant (keptFrom spaced ts) = significant (flatAll ts) := by
  induction ts generalizing spaced with
  | nil => rfl
  | cons t ts ih =>
    have ih' (b : Bool) : significant (keptFrom b ts) = significant (flatAll ts) :=
      ih fun u hu => hts u (List.mem_cons_of_mem _ hu)
    have hskip (ht : t.token.isSkipped = true) : significant t.flat = [] := by
      have hsound := hts t List.mem_cons_self
      cases t with
      | leaf x => simpa [significant, TokenTree.flat, TokenTree.token, TokenTree.head] using ht
      | group x inner closer =>
        rw [TokenTree.Sound] at hsound
        obtain ⟨-, -, u, hu, -⟩ := hsound
        rw [TokenTree.token, TokenTree.head, Token.isSkipped_of_closer? hu] at ht
        cases ht
    rw [flatAll, significant_append]
    rcases t.token.isSkipped_cases with ⟨text, ht⟩ | ⟨text, ht⟩ | ht
    · rw [keptFrom_comment ht, ih', hskip (by rw [ht]; rfl), List.nil_append]
    · rw [keptFrom_whitespace ht, hskip (by rw [ht]; rfl), List.nil_append]
      split
      · exact ih' true
      · exact ih' true
    · rw [keptFrom_cons ht, significant_append, ih']

/-- What is kept behind a space does not begin with another. -/
theorem isSpace_of_head_keptText (hts : ∀ t ∈ ts, t.Sound) :
    ∀ c ∈ (keptText true ts).head?, isSpace c = false := by
  induction ts with
  | nil => rintro c ⟨⟩
  | cons t ts ih =>
    have ih' := ih fun u hu => hts u (List.mem_cons_of_mem _ hu)
    rcases t.token.isSkipped_cases with ⟨text, ht⟩ | ⟨text, ht⟩ | ht
    · rwa [keptText, keptFrom_comment ht]
    · rwa [keptText, keptFrom_whitespace ht, Bool.true_or, if_pos rfl]
    · obtain ⟨d, s, hs, hspace⟩ := (hts t List.mem_cons_self).exists_source
      rw [keptText_cons ht, hs]
      rintro c ⟨⟩
      exact hspace ht

end Kept

/-! ## The parameters as text -/

section Params

variable {spaced : Bool} {ts : List TokenTree} {t : TokenTree}

theorem paramsFrom_comment {text : String} (ht : t.token = .comment text) :
    paramsFrom spaced (t :: ts) = paramsFrom spaced ts := by
  rw [paramsFrom, ht]

theorem paramsFrom_whitespace {text : String} (ht : t.token = .whitespace text) :
    paramsFrom spaced (t :: ts) =
      if spaced then paramsFrom true ts else ' ' :: paramsFrom true ts := by
  rw [paramsFrom, ht]

/-- Behind a space, at most that space is missing. -/
theorem paramsFrom_false (ts : List TokenTree) :
    paramsFrom false ts = paramsFrom true ts ∨ paramsFrom false ts = ' ' :: paramsFrom true ts := by
  induction ts with
  | nil => exact .inl rfl
  | cons t ts ih =>
    rcases t.token.isSkipped_cases with ⟨text, ht⟩ | ⟨text, ht⟩ | ht
    · rwa [paramsFrom_comment ht, paramsFrom_comment ht]
    · rw [paramsFrom_whitespace ht, paramsFrom_whitespace ht]
      exact .inr rfl
    · rw [paramsFrom_significant ht, paramsFrom_significant ht]
      exact .inl rfl

theorem paramsFrom_of_isSkipped (h : ts.all (·.token.isSkipped) = true) :
    paramsFrom true ts = [] := by
  induction ts with
  | nil => rfl
  | cons t ts ih =>
    rw [List.all_cons, Bool.and_eq_true] at h
    rcases t.token.isSkipped_cases with ⟨text, ht⟩ | ⟨text, ht⟩ | ht
    · rw [paramsFrom_comment ht, ih h.2]
    · rw [paramsFrom_whitespace ht, if_pos rfl, ih h.2]
    · rw [ht] at h
      cases h.1

/-- What is kept is all but a space at the end. -/
theorem paramsFrom_eq (spaced : Bool) (ts : List TokenTree) :
    paramsFrom spaced ts = keptText spaced ts ∨
      paramsFrom spaced ts = keptText spaced ts ++ [' '] := by
  induction ts generalizing spaced with
  | nil => exact .inl rfl
  | cons t ts ih =>
    rcases t.token.isSkipped_cases with ⟨text, ht⟩ | ⟨text, ht⟩ | ht
    · rw [paramsFrom_comment ht, keptText, keptFrom_comment ht]
      exact ih spaced
    · rw [paramsFrom_whitespace ht, keptText, keptFrom_whitespace ht]
      cases spaced with
      | true => exact ih true
      | false =>
        cases hall : ts.all (·.token.isSkipped) with
        | false => simpa [keptSpace, keptText] using ih true
        | true => simp [paramsFrom_of_isSkipped hall, keptFrom_of_isSkipped hall]
    · rw [paramsFrom_significant ht, keptText_cons ht]
      simpa using ih _

/-- The parameters are what is kept, trimmed. -/
theorem toList_paramsText (ts : List TokenTree) :
    (paramsText ts).toList = Text.trim (keptText true ts) := by
  have hlead : Text.trim (paramsFrom false ts) = Text.trim (paramsFrom true ts) := by
    rcases paramsFrom_false ts with h | h <;> rw [h]
    exact Text.trim_cons_space _
  rw [paramsText, String.toList_ofList, hlead]
  rcases paramsFrom_eq true ts with h | h <;> rw [h]
  exact Text.trim_append_space _

end Params

end MailCss
