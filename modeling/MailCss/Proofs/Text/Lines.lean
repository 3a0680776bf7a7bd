import MailCss.Text.Location

/-!
# Counting lines

How many line breaks a text has, and what they do to a mark. A mark that is *lowered* stands some
lines further down; reading from there goes as it would have gone, and comes out that much lower.

Main statements: `line_advance` (reading counts line breaks) and `start_advance` (behind whole lines
a mark is the first one, lowered by their number).
-/

namespace MailCss.Text

/-- The number of line breaks of a text: line feeds, form feeds and carriage returns, where a
carriage return and the line feed right after it are one. -/
def lineBreaks : List Char → Nat
  | [] => 0
  | '\r' :: '\n' :: r => lineBreaks r + 1
  | c :: r => (if c = '\n' ∨ c = '\r' ∨ c = '\x0c' then 1 else 0) + lineBreaks r

/-- A location some lines further down. -/
def Location.lowered (k : Nat) (l : Location) : Location := { l with line := l.line + k }

namespace Mark

/-- A mark some lines further down. -/
def lowered (k : Nat) (m : Mark) : Mark := { m with line := m.line + k }

theorem location_lowered (k : Nat) (m : Mark) :
    (m.lowered k).location = m.location.lowered k := rfl

theorem step_lowered (k : Nat) (m : Mark) (c : Char) :
    (m.lowered k).step c = (m.step c).lowered k := by
  by_cases hreturn : c = '\n' ∧ m.afterReturn = true
  · simp [step, lowered, hreturn]
  · by_cases hbreak : c = '\n' ∨ c = '\r' ∨ c = '\x0c'
    · simp [step, lowered, hreturn, hbreak, Nat.add_right_comm]
    · simp [step, lowered, hreturn, hbreak]

/-- Reading from further down. -/
theorem advance_lowered (k : Nat) (m : Mark) (s : List Char) :
    (m.lowered k).advance s = (m.advance s).lowered k := by
  induction s generalizing m with
  | nil => rfl
  | cons c s ih => exact (congrArg (advance · s) (step_lowered k m c)).trans (ih (m.step c))

theorem advance_cons (m : Mark) (c : Char) (s : List Char) :
    m.advance (c :: s) = (m.step c).advance s := rfl

/-- Only a carriage return is remembered. -/
theorem afterReturn_step (m : Mark) (c : Char) : (m.step c).afterReturn = (c == '\r') := by
  simp only [step]
  split
  · rename_i h
    rw [h.1]
    rfl
  · split
    · rfl
    · rename_i h
      have hc : c ≠ '\r' := fun hc => h (.inr (.inl hc))
      simp [hc]

theorem line_step {m : Mark} {c : Char} (h : m.afterReturn = true → c ≠ '\n') :
    (m.step c).line = m.line + if c = '\n' ∨ c = '\r' ∨ c = '\x0c' then 1 else 0 := by
  simp only [step]
  rw [if_neg fun hc => h hc.2 hc.1]
  split <;> rfl

/-- Reading counts line breaks, unless it begins inside one. -/
theorem line_advance (s : List Char) (m : Mark)
    (h : m.afterReturn = true → s.head? ≠ some '\n') :
    (m.advance s).line = m.line + lineBreaks s := by
  fun_induction lineBreaks s generalizing m with
  | case1 => rfl
  | case2 r ih =>
    have hline : ((m.step '\r').step '\n').line = m.line + 1 := by simp [step]
    have hreturn := afterReturn_step (m.step '\r') '\n'
    rw [advance_cons, advance_cons, ih _ (by rw [hreturn]; rintro ⟨⟩), hline]
    omega
  | case3 c r hcr ih =>
    rw [advance_cons, ih, line_step, Nat.add_assoc]
    · intro hm hc
      exact h hm (by rw [hc]; rfl)
    · rw [afterReturn_step]
      intro hc hhead
      obtain ⟨t, rfl⟩ := List.head?_eq_some_iff.1 hhead
      exact hcr t (by simpa using hc) rfl

/-- Behind a carriage return, a line begins. -/
theorem column_advance (m : Mark) (h : m.afterReturn = true → m.column = 0) (s : List Char) :
    (m.advance s).afterReturn = true → (m.advance s).column = 0 := by
  induction s generalizing m with
  | nil => exact h
  | cons c s ih =>
    refine ih (m.step c) ?_
    rw [afterReturn_step]
    intro hc
    have hc : c = '\r' := by simpa using hc
    subst hc
    rfl

/-- Behind whole lines, reading stands where it began, lowered by their number. -/
theorem start_advance {s : List Char} (h : s = [] ∨ s.getLast? = some '\n') :
    Mark.start.advance s = Mark.start.lowered (lineBreaks s) := by
  have hline := line_advance s .start (by rintro ⟨⟩)
  rcases h with rfl | hlast
  · rfl
  · obtain ⟨t, rfl⟩ := List.getLast?_eq_some_iff.1 hlast
    have hcolumn := column_advance .start (by rintro ⟨⟩) t
    rw [advance_append] at hline ⊢
    have hend : ((start.advance t).advance ['\n']).column = 0 ∧
        ((start.advance t).advance ['\n']).afterReturn = false := by
      refine ⟨?_, afterReturn_step _ '\n'⟩
      rw [advance_cons, advance_nil, step]
      split
      · rename_i hreturn
        exact hcolumn hreturn.2
      · rfl
    cases hmark : (start.advance t).advance ['\n'] with
    | mk line column afterReturn =>
      rw [hmark] at hline hend
      obtain ⟨rfl, rfl⟩ := hend
      cases hline
      rfl

end Mark

end MailCss.Text
