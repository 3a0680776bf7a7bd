import MailCss.Proofs.Css.Outside

/-!
# Texts that are read apart

Two texts in a row are *read apart* (`ReadApart`) if their lexemes are those of the first and then those
of the second: they do not run together where they meet. So it is if the first is *sealed*, which is
to say that it ends with a mark that nothing goes on, and also if the second begins with what halts
the first (`Parted`).

Main statements: `Parted.readApart`, and `lexemes_of_append`: the lexemes that end a text are those of
their own text.
-/

namespace MailCss.Css

/-- The lexemes that end a text are read from their own text as well. -/
theorem lexemes_of_append {s : List Char} {xs ys : List Lexeme} (h : lexemes s = xs ++ ys) :
    lexemes (ys.flatMap Lexeme.source) = ys := by
  induction xs generalizing s with
  | nil =>
    rw [List.nil_append] at h
    rw [← h, lexemes_source]
  | cons x xs ih =>
    cases s with
    | nil => cases h
    | cons c r =>
      rw [lexemes_cons, List.cons_append, List.cons.injEq] at h
      exact ih h.2

/-- Texts that do not run together where they meet. -/
def ReadApart (s r : List Char) : Prop := lexemes (s ++ r) = lexemes s ++ lexemes r

instance (s r : List Char) : Decidable (ReadApart s r) := inferInstanceAs (Decidable (_ = _))

theorem readApart_nil_left (r : List Char) : ReadApart [] r := rfl

theorem readApart_nil_right (s : List Char) : ReadApart s [] := by
  simp [ReadApart, lexemes, lexemesAfter]

/-- In front of what is apart from it, a text has its own lexemes. -/
theorem ReadApart.lexemes_left {s r : List Char} {xs : List Lexeme} (h : ReadApart s r)
    (hread : lexemes (s ++ r) = xs ++ lexemes r) : lexemes s = xs := by
  rw [ReadApart, hread] at h
  exact (List.append_cancel_right h).symm

/-! ## Marks that nothing goes on -/

/-- Nothing, or a text that ends with a mark outside strings, comments, urls and escapes. -/
def Sealed (s : List Char) : Prop :=
  ∀ c ∈ s.getLast?, c ∈ [')', ']', ',', ':'] ∧ EndsOutside s.dropLast

instance (s : List Char) : Decidable (Sealed s) := Option.decidableForallMem s.getLast?

/-- What is sealed is apart from whatever follows. -/
theorem Sealed.readApart {s : List Char} (h : Sealed s) (r : List Char) : ReadApart s r := by
  rcases List.eq_nil_or_concat s with rfl | ⟨t, c, rfl⟩
  · rfl
  rw [List.concat_eq_append] at h ⊢
  obtain ⟨hc, hends⟩ := h c (by simp)
  rw [List.dropLast_concat] at hends
  -- The mark is a lexeme of its own, and bars what is in front of it.
  have hmark (r : List Char) : scan c r = ⟨single c, [c]⟩ := by
    simp only [List.mem_cons, List.not_mem_nil, or_false] at hc
    rcases hc with rfl | rfl | rfl | rfl <;> rfl
  have hbars (r : List Char) : Bars (c :: r) := by
    simp only [List.mem_cons, List.not_mem_nil, or_false] at hc
    constructor <;> rintro d ⟨⟩ <;> rcases hc with rfl | rfl | rfl | rfl <;> decide
  have hcons (r : List Char) : lexemes (c :: r) = ⟨single c, [c]⟩ :: lexemes r :=
    lexemes_cons_of_scan (hmark r)
  rw [ReadApart, List.append_assoc, List.singleton_append, lexemes_append_of_endsOutside hends (hbars _),
    lexemes_append_of_endsOutside hends (hbars _), hcons, hcons, List.append_assoc]
  rfl

/-- There is nothing more, the first text is sealed, or the second halts it. -/
def Parted (s r : List Char) : Prop := r = [] ∨ Sealed s ∨ (Halted s r ∧ EndsBefore s r)

instance (s r : List Char) : Decidable (Parted s r) := inferInstanceAs (Decidable (_ ∨ _ ∨ _))

/-- Parted texts are apart. -/
theorem Parted.readApart {s r : List Char} (h : Parted s r) : ReadApart s r := by
  rcases h with rfl | hsealed | ⟨hhalted, hends⟩
  · exact readApart_nil_right s
  · exact hsealed.readApart r
  · exact lexemes_append_of_endsBefore hhalted hends

end MailCss.Css
