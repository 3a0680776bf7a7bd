import MailCss.Proofs.Css.Identifiers
import MailCss.Proofs.Css.Scan

/-!
# What a lexeme says

The name of an identifier and the text of a string are what a part of their source means. A meaning
is never longer than what is written, and it is what is written only where there are no escapes. So
a text that is the name of an identifier in it is that identifier, without escapes.

Main statements: `unescapeFrom_eq_self_iff` and `isIdentifier_of_scan`.
-/

namespace MailCss.Css

/-! ## Meanings and their length -/

namespace Escape

/-- How many characters an escape may still mean beyond those that are read for it. -/
def owed : Escape → Nat
  | .outside | .afterReturn => 0
  | .opened | .digits .. => 1

/-- What an escape has come to mean is paid for. -/
theorem length_meaning_le (e : Escape) (c : Char) :
    (e.meaning c).length + ((e.claims c).map owed).getD 0 ≤ e.owed := by
  cases e with
  | outside => simp [meaning, claims, owed]
  | afterReturn =>
    simp only [meaning, claims]
    split_ifs <;> simp [owed]
  | opened =>
    simp only [meaning, claims]
    cases hexDigit? c with
    | some d => simp [owed]
    | none => split_ifs <;> simp [owed]
  | digits left v =>
    cases left with
    | zero =>
      simp only [meaning, claims]
      split_ifs <;> simp_all [owed]
    | succ left =>
      cases hhex : hexDigit? c with
      | some d => simp [meaning, claims, hhex, owed]
      | none =>
        simp only [meaning, claims, hhex]
        split_ifs <;> simp_all [owed]

theorem length_finish_le {atEnd : List Char} (h : atEnd.length ≤ 1) (e : Escape) :
    (e.finish atEnd).length ≤ e.owed := by
  cases e <;> simp [finish, owed, h]

end Escape

section Length

variable {atEnd : List Char} (hlen : atEnd.length ≤ 1)

include hlen

theorem length_unescapeFrom_le (e : Escape) (s : List Char) :
    (unescapeFrom atEnd e s).length ≤ s.length + e.owed := by
  induction s generalizing e with
  | nil =>
    rw [unescapeFrom]
    exact (e.length_finish_le hlen).trans (Nat.le_add_left _ _)
  | cons c s ih =>
    have hmeaning := e.length_meaning_le c
    rw [unescapeFrom, List.length_append, List.length_cons]
    split
    · rename_i e' he'
      have hrest := ih e'
      simp only [he', Option.map_some, Option.getD_some] at hmeaning
      omega
    · have hopened : (unescapeFrom atEnd .opened s).length ≤ s.length + 1 := ih .opened
      have houtside : (unescapeFrom atEnd .outside s).length ≤ s.length := ih .outside
      split
      · omega
      · rw [List.length_cons]
        omega

/-- Behind a backslash, what is meant is no longer than what is written. -/
theorem length_unescapeFrom_opened_le (c : Char) (s : List Char) :
    (unescapeFrom atEnd .opened (c :: s)).length ≤ s.length + 1 := by
  have hmeaning : _ ≤ 1 := Escape.length_meaning_le .opened c
  have hclaims : (Escape.opened.claims c).isSome = true := by
    rw [Escape.claims]
    split <;> rfl
  obtain ⟨e', he'⟩ := Option.isSome_iff_exists.1 hclaims
  have hrest := length_unescapeFrom_le hlen e' s
  simp only [he', Option.map_some, Option.getD_some] at hmeaning
  rw [unescapeFrom, he', List.length_append]
  dsimp only
  omega

/-- A text is its own meaning if it has neither backslash nor NUL, and only then. -/
theorem unescapeFrom_eq_self_iff (hne : atEnd ≠ ['\\']) {s : List Char} :
    unescapeFrom atEnd .outside s = s ↔ ∀ c ∈ s, c ≠ '\\' ∧ c ≠ '\x00' := by
  induction s with
  | nil => simp [unescapeFrom, Escape.finish]
  | cons c s ih =>
    have hstep : unescapeFrom atEnd .outside (c :: s) =
        if c = '\\' then unescapeFrom atEnd .opened s
        else literal c :: unescapeFrom atEnd .outside s := rfl
    rw [hstep, List.forall_mem_cons]
    split_ifs with hslash
    · subst hslash
      refine iff_of_false ?_ fun h => h.1.1 rfl
      intro h
      -- A backslash would be paid for by what is behind it.
      rcases s with _ | ⟨d, s⟩
      · exact hne h
      · have hle := length_unescapeFrom_opened_le hlen d s
        rw [h, List.length_cons, List.length_cons] at hle
        omega
    · have hliteral : literal c = c ↔ c ≠ '\x00' := by
        rw [literal]
        split_ifs with hnul
        · rw [hnul]
          decide
        · simp [hnul]
      rw [List.cons.injEq, hliteral, ih]
      simp [hslash]

end Length

theorem unescape_eq_self_iff {s : List Char} :
    unescape s = s ↔ ∀ c ∈ s, c ≠ '\\' ∧ c ≠ '\x00' :=
  unescapeFrom_eq_self_iff (by simp) (by decide)

theorem unescapeString_eq_self_iff {s : List Char} :
    unescapeString s = s ↔ ∀ c ∈ s, c ≠ '\\' ∧ c ≠ '\x00' :=
  unescapeFrom_eq_self_iff (by simp) (by decide)

theorem length_unescape_le (s : List Char) : (unescape s).length ≤ s.length :=
  length_unescapeFrom_le (by simp) .outside s

theorem length_unescapeString_le (s : List Char) : (unescapeString s).length ≤ s.length :=
  length_unescapeFrom_le (by simp) .outside s

/-! ## Identifiers and strings -/

/-- The text of a token that is an identifier or a string. -/
def Token.text? : Token → Option String
  | .ident s | .string s => some s
  | _ => none

theorem scanPunctuation_text? (c : Char) (r : List Char) :
    (scanPunctuation c r).token.text? = none := by
  have hmatchers : ∀ t ∈ matchers, t.text? = none := by decide
  rcases scanPunctuation_cases c r with ⟨t, ht, hread⟩ | hread <;> rw [hread]
  · exact hmatchers t ht
  · show (single c).text? = none
    unfold single
    repeat' split
    all_goals rfl

theorem scanIdentLike_text? {s : List Char} {t : String}
    (h : (scanIdentLike s).token.text? = some t) :
    scanIdentLike s = ⟨.ident t, (spanName s).1⟩ ∧ t = String.ofList (unescape (spanName s).1) := by
  rcases scanIdentLike_cases s with hread | hread | ⟨u, w, hread⟩ | ⟨u, w, hread⟩ <;>
    rw [hread] at h ⊢ <;> cases h
  exact ⟨rfl, rfl⟩

/-- An identifier or a string is read where one begins. -/
theorem scan_text? {c : Char} {r : List Char} {t : String} (h : (scan c r).token.text? = some t) :
    startsIdent (c :: r) = true ∧ scan c r = scanIdentLike (c :: r) ∨
      (c = '"' ∨ c = '\'') ∧ scan c r = scanString c r := by
  revert h
  apply scan_elim (p := fun x => x.token.text? = some t →
    startsIdent (c :: r) = true ∧ x = scanIdentLike (c :: r) ∨
      (c = '"' ∨ c = '\'') ∧ x = scanString c r)
  case space => intro _ h; cases h
  case comment => intro _ _ h; cases h
  case string => exact fun hquote _ => .inr ⟨hquote, rfl⟩
  case hash =>
    intro _ h
    rcases scanHash_cases r with ⟨s, w, hread⟩ | ⟨s, w, hread⟩ | hread <;> rw [hread] at h <;>
      cases h
  case at_sign =>
    intro _ h
    rcases scanAt_cases r with ⟨s, w, hread⟩ | hread <;> rw [hread] at h <;> cases h
  case numeric =>
    intro _ h
    rcases scanNumeric_cases (c :: r) with ⟨n, w, hread⟩ | ⟨n, w, hread⟩ | ⟨n, u, w, hread⟩ <;>
      rw [hread] at h <;> cases h
  case commentClose => intro _ h; cases h
  case commentOpen => intro _ h; cases h
  case identLike => exact fun hident _ => .inl ⟨hident, rfl⟩
  case punctuation =>
    intro h
    rw [scanPunctuation_text?] at h
    cases h

/-- A string says what stands between its quotes. -/
theorem scanString_text? {quote : Char} {r : List Char} {t : String}
    (h : (scanString quote r).token.text? = some t) :
    t = String.ofList (unescapeString
      (escapedSpan (fun c _ => c = quote || isNewline c) .outside r).1) := by
  simp only [scanString] at h
  split at h
  · cases h
    rfl
  · split at h
    · cases h
      rfl
    · cases h

theorem length_span_lt_scanString (quote : Char) (r : List Char) :
    (escapedSpan (fun c _ => c = quote || isNewline c) .outside r).1.length <
      (scanString quote r).source.length := by
  simp only [scanString]
  split
  · simp
  · split
    · simp only [List.length_append, List.length_cons]
      omega
    · simp

/-- An identifier or a string says no more than is written. -/
theorem Lexeme.IsRead.length_text?_le {x : Lexeme} (hx : x.IsRead) {t : String}
    (ht : x.token.text? = some t) : t.toList.length ≤ x.source.length := by
  obtain ⟨c, r, rfl⟩ := hx
  rcases scan_text? ht with ⟨-, hscan⟩ | ⟨-, hscan⟩
  · rw [hscan] at ht ⊢
    obtain ⟨hident, rfl⟩ := scanIdentLike_text? ht
    rw [hident, String.toList_ofList]
    exact length_unescape_le _
  · rw [hscan] at ht ⊢
    rw [scanString_text? ht, String.toList_ofList]
    exact (length_unescapeString_le _).trans (length_span_lt_scanString c r).le

theorem length_source_le_of_mem {x : Lexeme} {s : List Char} (h : x ∈ lexemes s) :
    x.source.length ≤ s.length := by
  obtain ⟨c, r, hsuffix, rfl⟩ := exists_suffix_of_mem_lexemes h
  have hfront := scan_source_prefix c r
  exact hfront.length_le.trans hsuffix.length_le

theorem startsIdent_of_scan_ident {c : Char} {r : List Char} {name : String}
    (h : (scan c r).token = .ident name) :
    startsIdent (c :: r) = true ∧ scan c r = scanIdentLike (c :: r) := by
  rcases scan_text? (by rw [h]; rfl) with hident | ⟨-, hstring⟩
  · exact hident
  · rw [hstring] at h
    simp only [scanString] at h
    split at h
    · cases h
    · split at h <;> cases h

/-- A text that is the name of an identifier read at an end of it is that identifier. -/
theorem isIdentifier_of_scan {c : Char} {r w : List Char} (hsuffix : c :: r <:+ w)
    (h : (scan c r).token = .ident (String.ofList w)) :
    IsIdentifier w ∧ ∀ d ∈ w, d ≠ '\\' ∧ d ≠ '\x00' := by
  obtain ⟨hstarts, hscan⟩ := startsIdent_of_scan_ident h
  have htext : (scanIdentLike (c :: r)).token.text? = some (String.ofList w) := by
    rw [← hscan, h]
    rfl
  obtain ⟨hsource, hmeaning⟩ := scanIdentLike_text? htext
  have hname : w = unescape (spanName (c :: r)).1 := String.ofList_injective hmeaning
  have hsplit := spanName_append (c :: r)
  -- The name is not longer than the identifier, which is not longer than the end of the text.
  have hle := length_unescape_le (spanName (c :: r)).1
  rw [← hname] at hle
  have hlen := congrArg List.length hsplit
  rw [List.length_append] at hlen
  obtain rfl : c :: r = w := hsuffix.eq_of_length_le (by omega)
  have hrest : (spanName (c :: r)).2 = [] := List.eq_nil_of_length_eq_zero (by omega)
  rw [hrest, List.append_nil] at hsplit
  rw [hsplit] at hname
  have hplain := unescape_eq_self_iff.1 hname.symm
  refine ⟨⟨hstarts, hrest, ?_⟩, hplain⟩
  rw [Escape.run_outside_of_not_mem fun hslash => (hplain _ hslash).1 rfl]
  decide

end MailCss.Css
