import Mathlib
import MailCss.Proofs.Text.Lines

/-!
# Places of a text

The location behind a text, counted from the whole of it, and the place of a text that a location
stands for. Marks come to the same location character by character, and reading on moves it
further down or further right. Only between the two characters of one line break does it stay where
it is, so a location stands for at most one place that is not inside a line break.

Main statements: `Mark.location_start_advance` (reading counts what the location is counted from),
`Mark.location_lt_advance` (reading on moves the location) and `TextAt.unique` (there is at most one
place for a location).
-/

namespace MailCss.Text

/-! ## The order of locations -/

/-- Locations as pairs of numbers of which the line counts first. -/
def Location.key (l : Location) : ℕ ×ₗ ℕ := toLex (l.line, l.column)

theorem Location.key_injective : Function.Injective Location.key := by
  intro l l' h
  have hpair : (l.line, l.column) = (l'.line, l'.column) := toLex_inj.1 h
  cases l
  cases l'
  simpa using hpair

/-- Locations are ordered by line, and by column on one line. -/
instance : PartialOrder Location := PartialOrder.lift Location.key Location.key_injective

theorem Location.lt_iff {l l' : Location} :
    l < l' ↔ l.line < l'.line ∨ l.line = l'.line ∧ l.column < l'.column :=
  Prod.Lex.toLex_lt_toLex

/-! ## The location behind a text -/

/-- Whether a character ends a line. -/
def endsLine (c : Char) : Bool := c = '\n' ∨ c = '\r' ∨ c = '\x0c'

/-- What stands on the last line of a text. -/
def lastLine (s : List Char) : List Char := s.rtakeWhile fun c => !endsLine c

/-- The location right behind a text: one line more than it has line breaks, and the UTF-16 code
units on its last line. -/
def Location.behind (s : List Char) : Location :=
  ⟨1 + lineBreaks s, ((lastLine s).map units16).sum⟩

theorem lastLine_concat (s : List Char) (c : Char) :
    lastLine (s ++ [c]) = if endsLine c then [] else lastLine s ++ [c] := by
  rw [lastLine, List.rtakeWhile_concat]
  cases endsLine c <;> simp [lastLine]

namespace Mark

theorem advance_concat (m : Mark) (s : List Char) (c : Char) :
    m.advance (s ++ [c]) = (m.advance s).step c := by
  rw [advance_append, advance_cons, advance_nil]

/-- What is remembered is whether the text read so far ends with a carriage return. -/
theorem afterReturn_start_advance (s : List Char) :
    (start.advance s).afterReturn = true ↔ s.getLast? = some '\r' := by
  induction s using List.reverseRecOn with
  | nil => simp [start]
  | append_singleton s c => rw [advance_concat, afterReturn_step]; simp

theorem column_start_advance (s : List Char) :
    (start.advance s).column = ((lastLine s).map units16).sum := by
  induction s using List.reverseRecOn with
  | nil => rfl
  | append_singleton s c ih =>
    rw [advance_concat, lastLine_concat, step]
    split
    · -- A line feed behind a carriage return: the line has begun already.
      rename_i hreturn
      have hcolumn := column_advance start (by rintro ⟨⟩) s hreturn.2
      simp [endsLine, hreturn.1, hcolumn]
    · split
      · rename_i hbreak
        simp [endsLine, hbreak]
      · rename_i hbreak
        simp [endsLine, hbreak, ih]

/-- From the start, reading comes to the location behind what is read. -/
theorem location_start_advance (s : List Char) :
    (start.advance s).location = Location.behind s := by
  have hline := line_advance s start (by rintro ⟨⟩)
  rw [location, hline, column_start_advance]
  rfl

/-! ## Reading on -/

theorem location_lt_step {m : Mark} {c : Char} (h : m.afterReturn = true → c ≠ '\n') :
    m.location < (m.step c).location := by
  rw [Location.lt_iff, step, if_neg fun hc => h hc.2 hc.1]
  split
  · exact .inl (Nat.lt_succ_self _)
  · have hunits : 0 < units16 c := by
      unfold units16
      split <;> omega
    exact .inr ⟨rfl, Nat.lt_add_of_pos_right hunits⟩

theorem location_le_step (m : Mark) (c : Char) : m.location ≤ (m.step c).location := by
  by_cases h : c = '\n' ∧ m.afterReturn = true
  · rw [step, if_pos h]
    exact le_rfl
  · exact (location_lt_step fun hm hc => h ⟨hc, hm⟩).le

/-- Reading on never moves a location back. -/
theorem location_le_advance (m : Mark) (s : List Char) : m.location ≤ (m.advance s).location := by
  induction s generalizing m with
  | nil => exact le_rfl
  | cons c s ih => exact (location_le_step m c).trans (ih (m.step c))

/-- Reading on moves a location forward, unless it begins inside a line break. -/
theorem location_lt_advance {m : Mark} {c : Char} (h : m.afterReturn = true → c ≠ '\n')
    (s : List Char) : m.location < (m.advance (c :: s)).location :=
  (location_lt_step h).trans_le (location_le_advance (m.step c) s)

end Mark

/-! ## The text at a location -/

/-- In the text `s`, what follows the location `l` is `rest`: it stands behind a text with that
location behind it, and not inside a line break. -/
def TextAt (s : List Char) (l : Location) (rest : List Char) : Prop :=
  ∃ before, s = before ++ rest ∧ l = Location.behind before ∧
    (before.getLast? = some '\r' → rest.head? ≠ some '\n')

/-- A location is not further on than itself. -/
theorem eq_nil_of_behind_eq {before w : List Char}
    (hbreak : before.getLast? = some '\r' → w.head? ≠ some '\n')
    (h : Location.behind before = Location.behind (before ++ w)) : w = [] := by
  cases w with
  | nil => rfl
  | cons c w =>
    have hlt : (Mark.start.advance before).location <
        ((Mark.start.advance before).advance (c :: w)).location := by
      refine Mark.location_lt_advance ?_ w
      rw [Mark.afterReturn_start_advance]
      simpa using hbreak
    rw [← Mark.advance_append, Mark.location_start_advance, Mark.location_start_advance, h] at hlt
    exact absurd hlt (lt_irrefl _)

/-- There is at most one text at a location. -/
theorem TextAt.unique {s : List Char} {l : Location} {rest rest' : List Char}
    (h : TextAt s l rest) (h' : TextAt s l rest') : rest = rest' := by
  obtain ⟨before, hs, rfl, hbreak⟩ := h
  obtain ⟨before', hs', hl, hbreak'⟩ := h'
  rw [hs] at hs'
  -- One of the two texts in front of the location is the front of the other.
  rcases List.append_eq_append_iff.1 hs' with ⟨w, rfl, rfl⟩ | ⟨w, rfl, rfl⟩
  · obtain rfl : w = [] := eq_nil_of_behind_eq (fun hr => fun hw => hbreak hr (by simp [hw])) hl
    rfl
  · obtain rfl : w = [] :=
      eq_nil_of_behind_eq (fun hr => fun hw => hbreak' hr (by simp [hw])) hl.symm
    rfl

end MailCss.Text
