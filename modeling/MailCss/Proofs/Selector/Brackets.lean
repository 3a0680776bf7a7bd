import MailCss.Proofs.Selector.Parsed

/-!
# Tokens written one behind the other

The tokens in the brackets of a pseudo-class or a pseudo-element that is not known are written one
behind the other, where some of them may run together. What is written is read as such arguments
again if it opens and closes the groups of the tokens (`keepsBrackets`), whatever lies between.

Main statement: `exists_spells_tokens`.
-/

namespace MailCss

open Css

/-- Whether a token opens a group, closes one or breaks off. -/
def Css.Token.isBracket (t : Token) : Bool := t.closer?.isSome || t.isMalformed

/-- Whether a function and its tokens, written one behind the other, fall into the name of the
function and tokens that open and close the same groups. -/
def keepsBrackets (name : String) (ts : List Token) : Bool :=
  let text := name.toList ++ '(' :: ts.flatMap Written.token
  let tokens := (lexemes text).map Lexeme.token
  decide (EndsOutside text) && tokens.head? == some (.function name) &&
    tokens.tail.filter Token.isBracket == ts.filter Token.isBracket

section Tokens

variable {xs ys a : List Lexeme} {us vs : List TokenTree} {d : Nat}

/-- Lexemes with the brackets of tokens that begin with one. -/
theorem exists_of_filter_eq_cons {t : Token} {ts : List Token}
    (h : (xs.map Lexeme.token).filter Token.isBracket = t :: ts) :
    ∃ a y b, xs = a ++ y :: b ∧ (∀ x ∈ a, x.token.isBracket = false) ∧ y.token = t ∧
      (b.map Lexeme.token).filter Token.isBracket = ts := by
  rw [List.filter_map] at h
  obtain ⟨y, b, hfilter, hy, hb⟩ := List.map_eq_cons_iff.1 h
  obtain ⟨a, b', rfl, ha, -, hb'⟩ := List.filter_eq_cons_iff.1 hfilter
  refine ⟨a, y, b', rfl, fun x hx => by simpa using ha x hx, hy, ?_⟩
  rw [List.filter_map, hb', hb]

theorem exists_of_filter_eq_append {ts us : List Token}
    (h : (xs.map Lexeme.token).filter Token.isBracket = ts ++ us) :
    ∃ a b, xs = a ++ b ∧ (a.map Lexeme.token).filter Token.isBracket = ts ∧
      (b.map Lexeme.token).filter Token.isBracket = us := by
  obtain ⟨l, r, hxs, hl, hr⟩ := List.filter_eq_append_iff.1 h
  obtain ⟨a, b, rfl, rfl, rfl⟩ := List.map_eq_append_iff.1 hxs
  exact ⟨a, b, rfl, hl, hr⟩

/-- Trees whose tokens are read as arguments, wherever they stand. -/
def AreArguments (d : Nat) (us : List TokenTree) : Prop :=
  ∀ after, ∃ ts, argumentsTokens d after us = .ok ts

theorem nested_plain (ha : ∀ x ∈ a, x.token.isBracket = false) (hxs : Nested xs us) :
    Nested (a ++ xs) (a.map TokenTree.leaf ++ us) := by
  have hplain {t : Token} (ht : t.isBracket = false) : t.closer? = none ∧ t.isCloser = false := by
    cases t <;> first | exact ⟨rfl, rfl⟩ | cases ht
  induction a with
  | nil => exact hxs
  | cons x a ih =>
    obtain ⟨hopen, hclose⟩ := hplain (ha x List.mem_cons_self)
    exact .leaf hopen hclose (ih fun y hy => ha y (List.mem_cons_of_mem _ hy))

theorem areArguments_plain (ha : ∀ x ∈ a, x.token.isBracket = false) (hus : AreArguments d us) :
    AreArguments d (a.map TokenTree.leaf ++ us) := by
  induction a with
  | nil => exact hus
  | cons x a ih =>
    intro after
    obtain ⟨ts, hts⟩ := ih (fun y hy => ha y (List.mem_cons_of_mem _ hy)) after
    have hx := ha x List.mem_cons_self
    rw [Token.isBracket, Bool.or_eq_false_iff] at hx
    refine ⟨[x.token] ++ ts, ?_⟩
    rw [List.map_cons, List.cons_append, argumentsTokens, argumentTokens, hx.2,
      if_neg Bool.false_ne_true, hts]
    rfl

/-- Lexemes with the brackets of arguments nest, and their trees are arguments. -/
theorem exists_nested_of_argumentsTokens {xs : List Lexeme} {d after : Nat} (us : List TokenTree)
    (hsound : ∀ t ∈ us, t.Sound) {ts : List Token} (h : argumentsTokens d after us = .ok ts)
    (hxs : (xs.map Lexeme.token).filter Token.isBracket = ts.filter Token.isBracket) :
    ∃ vs, Nested xs vs ∧ AreArguments d vs := by
  match us with
  | [] =>
    cases h
    have hplain : ∀ x ∈ xs, x.token.isBracket = false := by
      simpa [List.filter_eq_nil_iff] using hxs
    have hnested := nested_plain hplain .nil
    rw [List.append_nil] at hnested
    exact ⟨_, hnested, areArguments_plain hplain fun _ => ⟨[], rfl⟩⟩
  | .leaf x :: us =>
    have hx := hsound _ List.mem_cons_self
    rw [TokenTree.Sound] at hx
    obtain ⟨here, hhere, h⟩ := exists_of_bind_eq_ok h
    obtain ⟨rest, hrest, h⟩ := exists_of_bind_eq_ok h
    cases h
    rw [argumentTokens] at hhere
    split_ifs at hhere with hmalformed
    · cases hhere
    cases hhere
    have hplain : x.token.isBracket = false := by simp [Token.isBracket, hx.2, hmalformed]
    rw [List.singleton_append, List.filter_cons_of_neg (by simp [hplain])] at hxs
    exact exists_nested_of_argumentsTokens us (fun t ht => hsound t (List.mem_cons_of_mem _ ht))
      hrest hxs
  | .group x inner closer :: us =>
    have hx := hsound _ List.mem_cons_self
    rw [TokenTree.Sound] at hx
    obtain ⟨-, hinner, t, ht, -⟩ := hx
    obtain ⟨here, hhere, h⟩ := exists_of_bind_eq_ok h
    obtain ⟨rest, hrest, h⟩ := exists_of_bind_eq_ok h
    cases h
    rw [argumentTokens] at hhere
    split_ifs at hhere with hdeep
    · cases hhere
    obtain ⟨ti, hti, hhere⟩ := exists_of_bind_eq_ok hhere
    cases hhere
    have hopens : x.token.isBracket = true := by simp [Token.isBracket, ht]
    have hcloses : t.isBracket = true := by
      have hcloser := Token.isCloser_of_closer? ht
      cases t <;> first | rfl | cases hcloser
    rw [ht, Option.toList_some, List.cons_append, List.cons_append, List.append_assoc,
      List.singleton_append, List.filter_cons_of_pos hopens, List.filter_append,
      List.filter_cons_of_pos hcloses] at hxs
    -- The group goes from the first bracket to the one that is behind the brackets inside.
    obtain ⟨a, y, b, rfl, ha, hy, hb⟩ := exists_of_filter_eq_cons hxs
    obtain ⟨b, c, rfl, hfront, hc⟩ := exists_of_filter_eq_append hb
    obtain ⟨e, z, r, rfl, he, hz, hr⟩ := exists_of_filter_eq_cons hc
    have hbe : ((b ++ e).map Lexeme.token).filter Token.isBracket = ti.filter Token.isBracket := by
      have hnone : (e.map Lexeme.token).filter Token.isBracket = [] := by
        simpa [List.filter_eq_nil_iff] using he
      rw [List.map_append, List.filter_append, hfront, hnone, List.append_nil]
    obtain ⟨vi, hvi, hargumentsi⟩ := exists_nested_of_argumentsTokens inner hinner.sound hti hbe
    obtain ⟨vr, hvr, hargumentsr⟩ := exists_nested_of_argumentsTokens us
      (fun t ht => hsound t (List.mem_cons_of_mem _ ht)) hrest hr
    have hgroup : Nested (y :: (b ++ (e ++ z :: r))) (.group y vi z.source :: vr) := by
      rw [← List.append_assoc]
      exact .group (by rw [hy, hz, ht]) hvi hvr
    refine ⟨_, nested_plain ha hgroup, areArguments_plain ha fun after => ?_⟩
    obtain ⟨tsi, htsi⟩ := hargumentsi (z.source.length + (TokenTree.sizeAll vr + after))
    obtain ⟨tsr, htsr⟩ := hargumentsr after
    refine ⟨(y.token :: tsi ++ y.token.closer?.toList) ++ tsr, ?_⟩
    rw [argumentsTokens, argumentTokens]
    simp only [if_neg hdeep, htsi, htsr]
    rfl

/-- A function is read from what is written for its tokens, if that keeps their brackets. -/
theorem exists_spells_tokens {name : String} {ts : List Token} {inner : List Item}
    (hinner : SoundItems inner) (h : readArguments inner = .ok (.tokens ts))
    (hkeeps : keepsBrackets name ts = true) :
    ∃ (x : Lexeme) (us : List TokenTree) (args : Arguments),
      Spells Anything (name.toList ++ inBrackets (ts.flatMap Written.token)) [.group x us [')']] ∧
        x.token = .function name ∧ readArguments (Item.ofTrees us) = .ok args := by
  simp only [keepsBrackets, Bool.and_eq_true, decide_eq_true_eq, beq_iff_eq] at hkeeps
  obtain ⟨⟨houtside, hhead⟩, hfilter⟩ := hkeeps
  obtain ⟨ts', hts, heq⟩ := exists_of_map_eq_ok h
  cases heq
  have htree (t : TokenTree) : (Item.ofTree t).tree = t := by cases t <;> rfl
  have hsound : ∀ t ∈ inner.map Item.tree, t.Sound := by
    intro t ht
    obtain ⟨i, hi, rfl⟩ := List.mem_map.1 ht
    obtain ⟨u, hu, rfl⟩ := hinner i hi
    rwa [htree]
  cases hlexemes : lexemes (name.toList ++ '(' :: ts.flatMap Written.token) with
  | nil =>
    rw [hlexemes] at hhead
    cases hhead
  | cons x xs =>
    rw [hlexemes] at hhead hfilter
    obtain ⟨us, hnested, harguments⟩ := exists_nested_of_argumentsTokens _ hsound hts hfilter
    have hx : x.token = .function name := Option.some.inj hhead
    obtain ⟨vs, hvs⟩ := harguments 0
    refine ⟨x, us, .tokens vs, ⟨x :: (xs ++ [⟨.parenClose, [')']⟩]), ?_, fun r _ => ?_⟩, hx, ?_⟩
    · exact .group (y := ⟨.parenClose, [')']⟩) (by rw [hx]; rfl) hnested .nil
    · have hclose : lexemes (')' :: r) = ⟨.parenClose, [')']⟩ :: lexemes r :=
        lexemes_cons_of_scan rfl
      have htext : name.toList ++ inBrackets (ts.flatMap Written.token) ++ r =
          (name.toList ++ '(' :: ts.flatMap Written.token) ++ ')' :: r := by simp [inBrackets]
      rw [htext, lexemes_append_of_endsOutside houtside (bars_parenClose r), hlexemes, hclose]
      simp
    · rw [readArguments, Item.ofTrees_eq_map, List.map_map]
      have hid : us.map (Item.tree ∘ Item.ofTree) = us.map id :=
        List.map_congr_left fun t _ => htree t
      rw [hid, List.map_id, hvs]
      rfl

end Tokens

end MailCss
