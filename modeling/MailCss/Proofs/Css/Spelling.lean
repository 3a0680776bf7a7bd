import MailCss.Proofs.Css.Identifiers
import MailCss.Proofs.Css.Nesting
import MailCss.Proofs.Css.Outside

/-!
# Texts that spell token trees

`Spells F w ts` says that `w` has the token trees `ts` in front of any text of which `F` holds, and
that what is behind it is read as if it stood alone. So texts that spell trees can be put in a row
(`Spells.append`) and in brackets (`spells_group`).
-/

namespace MailCss.Css

/-- In front of a text of which `F` holds, `w` has the lexemes of the trees `ts`. -/
def Spells (F : List Char → Prop) (w : List Char) (ts : List TokenTree) : Prop :=
  ∃ xs, Nested xs ts ∧ ∀ r, F r → lexemes (w ++ r) = xs ++ lexemes r

/-- Any text. -/
def Anything (_ : List Char) : Prop := True

@[simp] theorem TokenTree.token_leaf (x : Lexeme) : (TokenTree.leaf x).token = x.token := rfl

/-- A text that does not begin with the character `d`. -/
def BeginsWithout (d : Char) (r : List Char) : Prop := r.head? ≠ some d

namespace Spells

variable {F G : List Char → Prop} {v w r : List Char} {ts us : List TokenTree}

theorem nil : Spells F [] [] := ⟨[], .nil, fun _ _ => rfl⟩

theorem mono (h : Spells F w ts) (hF : ∀ r, G r → F r) : Spells G w ts := by
  obtain ⟨xs, hxs, hread⟩ := h
  exact ⟨xs, hxs, fun r hr => hread r (hF r hr)⟩

/-- A text that may stand in front of anything. -/
theorem of_anything (h : Spells Anything w ts) : Spells F w ts := h.mono fun _ _ => trivial

theorem append (hv : Spells F v ts) (hw : Spells G w us) (h : ∀ r, G r → F (w ++ r)) :
    Spells G (v ++ w) (ts ++ us) := by
  obtain ⟨xs, hxs, hreadv⟩ := hv
  obtain ⟨ys, hys, hreadw⟩ := hw
  refine ⟨xs ++ ys, hxs.append hys, ?_⟩
  intro r hr
  rw [List.append_assoc, hreadv _ (h r hr), hreadw r hr, List.append_assoc]

/-- The trees of a text that is spelled in front of another. -/
theorem ofText_append (h : Spells F w ts) (hr : F r) :
    TokenTree.ofText (w ++ r) = ts ++ TokenTree.ofText r := by
  obtain ⟨xs, hxs, hread⟩ := h
  rw [TokenTree.ofText, hread r hr, TokenTree.ofLexemes_append_of_nested hxs]
  rfl

theorem ofText_eq (h : Spells F w ts) (hF : F []) : TokenTree.ofText w = ts := by
  have happend := h.ofText_append hF
  rwa [List.append_nil, show TokenTree.ofText [] = [] from rfl, List.append_nil] at happend

end Spells

/-- A text that does not begin with white space. -/
def BeginsNoSpace (r : List Char) : Prop := ∀ c ∈ r.head?, isSpace c = false

/-- A text whose first tree is not white space does not begin with any. -/
theorem Spells.beginsNoSpace {F : List Char → Prop} {w : List Char} {t : TokenTree}
    {ts : List TokenTree} (h : Spells F w (t :: ts)) (hF : F []) (ht : t.token.isSkipped = false)
    (r : List Char) : BeginsNoSpace (w ++ r) := by
  obtain ⟨xs, hxs, hread⟩ := h
  have hlexemes := hread [] hF
  have hhead : xs.head? = some t.head := by
    cases hxs <;> rfl
  rcases w with _ | ⟨c, w⟩
  · have hnil : ([] : List Lexeme) = xs ++ [] := hlexemes
    rw [List.append_nil] at hnil
    rw [← hnil] at hhead
    cases hhead
  · rintro d ⟨⟩
    rw [← Bool.not_eq_true]
    intro hspace
    have hscan : (scan c w).token.isSkipped = true := by
      rw [scan]
      simp only [hspace, if_true]
      rfl
    have hcons : lexemes (c :: w) = xs := by simpa [show lexemes [] = [] from rfl] using hlexemes
    rw [lexemes_cons] at hcons
    rw [← hcons, List.head?_cons, Option.some.injEq] at hhead
    rw [hhead, ← TokenTree.token, ht] at hscan
    cases hscan

/-- A text whose only tree is a delimiter is its character. -/
theorem Spells.eq_of_delim {F : List Char → Prop} {w : List Char} {t : TokenTree} {d : Char}
    (h : Spells F w [t]) (hF : F []) (ht : t.token = .delim d) : w = [d] := by
  obtain ⟨xs, hxs, hread⟩ := h
  have hlexemes : lexemes w = xs := by
    simpa [show lexemes [] = [] from rfl] using hread [] hF
  cases hxs with
  | @leaf x xs _ _ _ htail =>
    cases htail
    have hx : x.IsRead := isRead_of_mem_lexemes (s := w) (by simp [hlexemes])
    have hsource : x.source = [d] := hx.source_of_delim? (by rw [← TokenTree.token_leaf, ht]; rfl)
    have hw := lexemes_source w
    rw [hlexemes] at hw
    simpa [hsource] using hw.symm
  | group hclose _ _ =>
    rw [TokenTree.token, TokenTree.head] at ht
    rw [ht] at hclose
    cases hclose

/-! ## Single lexemes -/

/-- A lexeme that opens and closes nothing. -/
theorem spells_leaf {F : List Char → Prop} {w : List Char} {x : Lexeme}
    (hopen : x.token.closer? = none) (hclose : x.token.isCloser = false)
    (h : ∀ r, F r → lexemes (w ++ r) = x :: lexemes r) : Spells F w [.leaf x] :=
  ⟨[x], .leaf hopen hclose .nil, h⟩

/-- A character that is a lexeme. -/
theorem spells_char {F : List Char → Prop} {c : Char} {t : Token} (hopen : t.closer? = none)
    (hclose : t.isCloser = false) (h : ∀ r, F r → scan c r = ⟨t, [c]⟩) :
    Spells F [c] [.leaf ⟨t, [c]⟩] :=
  spells_leaf hopen hclose fun r hr => lexemes_cons_of_scan (h r hr)

theorem spells_colon : Spells Anything [':'] [.leaf ⟨.colon, [':']⟩] :=
  spells_char rfl rfl fun _ _ => rfl

theorem spells_comma : Spells Anything [','] [.leaf ⟨.comma, [',']⟩] :=
  spells_char rfl rfl fun _ _ => rfl

theorem spells_ampersand : Spells Anything ['&'] [.leaf ⟨.delim '&', ['&']⟩] :=
  spells_char rfl rfl fun _ _ => rfl

theorem spells_greater : Spells Anything ['>'] [.leaf ⟨.delim '>', ['>']⟩] :=
  spells_char rfl rfl fun _ _ => rfl

theorem spells_equals : Spells Anything ['='] [.leaf ⟨.delim '=', ['=']⟩] :=
  spells_char rfl rfl fun _ _ => rfl

/-- Punctuation that an equals sign would go on with. -/
theorem scanPunctuation_of_beginsWithout {c : Char} {r : List Char} (h : BeginsWithout '=' r) :
    scanPunctuation c r = ⟨single c, [c]⟩ := by
  unfold scanPunctuation
  split
  · exact absurd rfl h
  · rfl

theorem spells_star : Spells (BeginsWithout '=') ['*'] [.leaf ⟨.delim '*', ['*']⟩] :=
  spells_char rfl rfl fun _ hr => scanPunctuation_of_beginsWithout hr

theorem spells_bar : Spells (BeginsWithout '=') ['|'] [.leaf ⟨.delim '|', ['|']⟩] :=
  spells_char rfl rfl fun _ hr => scanPunctuation_of_beginsWithout hr

theorem spells_tilde : Spells (BeginsWithout '=') ['~'] [.leaf ⟨.delim '~', ['~']⟩] :=
  spells_char rfl rfl fun _ hr => scanPunctuation_of_beginsWithout hr

/-- A text that does not begin with a digit or a point. -/
def BeginsNoNumber (r : List Char) : Prop := ∀ c ∈ r.head?, c.isDigit = false ∧ c ≠ '.'

theorem startsNumber_of_beginsNoNumber {s r : List Char} (hs : (spanSign s).2 = r)
    (h : BeginsNoNumber r) : startsNumber s = false := by
  rcases r with _ | ⟨c, r⟩
  · simp [startsNumber, hs, spanDigits, spanFraction]
  · exact startsNumber_eq_false hs (h c rfl).1 (h c rfl).2

theorem spells_plus : Spells BeginsNoNumber ['+'] [.leaf ⟨.delim '+', ['+']⟩] := by
  refine spells_char rfl rfl fun r hr => ?_
  have hnumber : startsNumber ('+' :: r) = false := startsNumber_of_beginsNoNumber rfl hr
  rw [scan]
  simp only [hnumber]
  rfl

/-- A text that does not begin with a digit. -/
def BeginsNoDigit (r : List Char) : Prop := ∀ c ∈ r.head?, c.isDigit = false

theorem spells_point : Spells BeginsNoDigit ['.'] [.leaf ⟨.delim '.', ['.']⟩] := by
  refine spells_char rfl rfl fun r hr => ?_
  have hdigits : r.takeWhile Char.isDigit = [] := by
    rcases r with _ | ⟨c, r⟩
    · rfl
    · simp [hr c rfl]
  have hnumber : startsNumber ('.' :: r) = false := by
    simp [startsNumber, spanSign, spanDigits, spanFraction, hdigits]
  rw [scan]
  simp only [hnumber]
  rfl

theorem spells_space : Spells BeginsNoSpace [' '] [.leaf ⟨.whitespace " ", [' ']⟩] :=
  spells_leaf rfl rfl fun _ hr => lexemes_space hr

/-- The two characters of a comparison. -/
theorem spells_matcher {c : Char} {t : Token} (ht : matcher? c = some t) :
    Spells Anything [c, '='] [.leaf ⟨t, [c, '=']⟩] := by
  have hmatchers : ∀ t ∈ matchers, t.closer? = none ∧ t.isCloser = false := by decide
  obtain ⟨hopen, hclose⟩ := hmatchers t (mem_matchers ht)
  have hc : c ∈ ['~', '|', '^', '$', '*'] := by
    unfold matcher? at ht
    repeat' split at ht
    all_goals simp_all
  have hscan (r : List Char) : scan c ('=' :: r) = ⟨t, [c, '=']⟩ := by
    have hpunctuation : scan c ('=' :: r) = scanPunctuation c ('=' :: r) := by
      simp only [List.mem_cons, List.not_mem_nil, or_false] at hc
      rcases hc with rfl | rfl | rfl | rfl | rfl <;> rfl
    rw [hpunctuation]
    simp only [scanPunctuation, ht]
  exact spells_leaf hopen hclose fun r _ => lexemes_eq_cons (hscan r) rfl

/-! ## Names and strings -/

/-- The tree of an identifier. -/
def identLeaf (w : List Char) : TokenTree := .leaf ⟨.ident (String.ofList (unescape w)), w⟩

@[simp] theorem token_identLeaf (w : List Char) :
    (identLeaf w).token = .ident (String.ofList (unescape w)) := rfl

theorem spells_ident {w : List Char} (h : IsIdent w) : Spells EndsIdents w [identLeaf w] :=
  spells_leaf rfl rfl fun _ hr => lexemes_ident h hr

theorem spells_idHash {w : List Char} (h : IsIdent w) :
    Spells EndsNames ('#' :: w) [.leaf ⟨.idHash (String.ofList (unescape w)), '#' :: w⟩] :=
  spells_leaf rfl rfl fun _ hr => lexemes_idHash h hr

theorem spells_string (s : List Char) :
    ∃ t, Spells Anything (Written.string s) [.leaf ⟨.string t, Written.string s⟩] :=
  ⟨_, spells_leaf rfl rfl fun r _ => lexemes_string s r⟩

/-! ## Groups -/

/-- A text in brackets. -/
theorem spells_group {F : List Char → Prop} {v w : List Char} {x y : Lexeme}
    {ts : List TokenTree} (hclose : x.token.closer? = some y.token)
    (hv : ∀ r, lexemes (v ++ r) = x :: lexemes r) (hw : Spells F w ts)
    (hF : ∀ r, F (y.source ++ r)) (hy : ∀ r, lexemes (y.source ++ r) = y :: lexemes r) :
    Spells Anything (v ++ (w ++ y.source)) [.group x ts y.source] := by
  obtain ⟨xs, hxs, hread⟩ := hw
  refine ⟨x :: (xs ++ [y]), .group hclose hxs .nil, ?_⟩
  intro r _
  rw [List.append_assoc, hv, List.append_assoc, hread _ (hF r), hy]
  simp

theorem bars_parenClose (r : List Char) : Bars (')' :: r) where
  halts := by
    rintro c ⟨⟩
    decide
  space := by
    rintro c ⟨⟩
    decide

end MailCss.Css
