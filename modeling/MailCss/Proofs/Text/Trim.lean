import Mathlib.Data.List.DropRight
import MailCss.Text.Blank

/-!
# Trimming

What trimming keeps and what it takes away. A text is *trimmed* if it neither begins nor ends with
a blank; trimming gives such a text, and keeps it as it is.

Main statements: `trim_eq_self_iff` (the trimmed texts), `trim_append_of_blank` and
`trim_cons_of_blank` (blanks at either end do not count), and `trim_append_eq_iff` (they are the
only thing that does not).
-/

namespace MailCss.Text

variable {s t : List Char}

theorem trimStart_append_of_blank (hs : ∀ c ∈ s, isBlank c = true) (t : List Char) :
    trimStart (s ++ t) = trimStart t :=
  List.dropWhile_append_of_pos hs

/-- The blanks at the front do not count. -/
theorem trim_append_left_of_blank (hs : ∀ c ∈ s, isBlank c = true) (t : List Char) :
    trim (s ++ t) = trim t := by
  rw [trim, trimStart_append_of_blank hs, trim]

/-- A blank at the front does not count. -/
theorem trim_cons_of_blank {c : Char} (hc : isBlank c = true) (t : List Char) :
    trim (c :: t) = trim t :=
  trim_append_left_of_blank (s := [c]) (by simpa using hc) t

theorem trimEnd_append_of_blank (s : List Char) (ht : ∀ c ∈ t, isBlank c = true) :
    trimEnd (s ++ t) = trimEnd s := by
  have ht' : ∀ c ∈ t.reverse, isBlank c = true := by simpa using ht
  rw [trimEnd, List.reverse_append, List.dropWhile_append_of_pos ht', trimEnd]

/-- A text without a character that is not blank is trimmed away. -/
theorem trim_eq_nil_iff : trim s = [] ↔ ∀ c ∈ s, isBlank c = true := by
  constructor
  · intro h
    have hstart : ∀ c ∈ trimStart s, isBlank c = true :=
      List.rdropWhile_eq_nil_iff.1 h
    intro c hc
    by_contra hb
    have hmem : c ∈ trimStart s := by
      rw [← List.takeWhile_append_dropWhile (p := isBlank) (l := s)] at hc
      rcases List.mem_append.1 hc with hc | hc
      · exact absurd (List.mem_takeWhile_imp hc) hb
      · exact hc
    exact hb (hstart c hmem)
  · intro h
    rw [trim, trimStart, List.dropWhile_eq_nil_iff.2 h]
    rfl

/-- In front of a text, what begins with no blank stays. -/
theorem trimStart_append (hs : trimStart s ≠ []) (t : List Char) :
    trimStart (s ++ t) = trimStart s ++ t := by
  rw [trimStart, List.dropWhile_append]
  split
  · rename_i h
    exact absurd (List.isEmpty_iff.1 h) hs
  · rfl

theorem trimStart_ne_nil (h : ∃ c ∈ s, isBlank c = false) : trimStart s ≠ [] := by
  obtain ⟨c, hc, hb⟩ := h
  intro h
  rw [List.dropWhile_eq_nil_iff.1 h c hc] at hb
  cases hb

/-- The blanks at the end do not count. -/
theorem trim_append_of_blank (s : List Char) (ht : ∀ c ∈ t, isBlank c = true) :
    trim (s ++ t) = trim s := by
  by_cases hs : ∃ c ∈ s, isBlank c = false
  · rw [trim, trimStart_append (trimStart_ne_nil hs), trimEnd_append_of_blank _ ht, trim]
  · have hs' : ∀ c ∈ s, isBlank c = true := by simpa using hs
    rw [trim_append_left_of_blank hs', trim_eq_nil_iff.2 ht, trim_eq_nil_iff.2 hs']

/-- With something behind it that is not all blank, a text is kept up to there. -/
theorem trimEnd_append (s : List Char) (ht : ∃ c ∈ t, isBlank c = false) :
    trimEnd (s ++ t) = s ++ trimEnd t := by
  have hr : trimStart t.reverse ≠ [] := trimStart_ne_nil (by simpa using ht)
  have h := trimStart_append hr s.reverse
  rw [trimEnd, List.reverse_append]
  unfold trimStart at h
  rw [h, List.reverse_append, List.reverse_reverse]
  rfl

theorem trimEnd_ne_nil (h : ∃ c ∈ s, isBlank c = false) : trimEnd s ≠ [] := by
  obtain ⟨c, hc, hb⟩ := h
  intro h
  rw [List.rdropWhile_eq_nil_iff.1 h c hc] at hb
  cases hb

theorem trimEnd_length_le (s : List Char) : (trimEnd s).length ≤ s.length :=
  (List.rdropWhile_prefix isBlank s).length_le

/-- What stands behind a text is trimmed away with its blanks only if it is blank. -/
theorem trim_append_eq_iff (s t : List Char) :
    trim (s ++ t) = trim s ↔ ∀ c ∈ t, isBlank c = true := by
  constructor
  · intro h
    by_contra hb
    have ht : ∃ c ∈ t, isBlank c = false := by simpa using hb
    by_cases hs : ∃ c ∈ s, isBlank c = false
    · -- Both parts show, so the joined text is longer.
      have hlen := congrArg List.length h
      rw [trim, trimStart_append (trimStart_ne_nil hs), trimEnd_append _ ht,
        List.length_append] at hlen
      have hle : (trim s).length ≤ (trimStart s).length := trimEnd_length_le _
      have hpos : 0 < (trimEnd t).length := List.length_pos_iff.2 (trimEnd_ne_nil ht)
      omega
    · have hs' : ∀ c ∈ s, isBlank c = true := by simpa using hs
      rw [trim_append_left_of_blank hs', trim_eq_nil_iff.2 hs'] at h
      exact hb (trim_eq_nil_iff.1 h)
  · exact trim_append_of_blank s

/-- A text that begins and ends with no blank is trimmed. -/
theorem trim_eq_self (hh : ∀ c ∈ s.head?, isBlank c = false)
    (hl : ∀ c ∈ s.getLast?, isBlank c = false) : trim s = s := by
  have hstart : trimStart s = s := by
    cases s with
    | nil => rfl
    | cons c r => simp [trimStart, hh c (by simp)]
  rw [trim, hstart]
  refine List.rdropWhile_eq_self_iff.2 fun hne => ?_
  rw [hl _ (List.getLast_mem_getLast? hne)]
  exact Bool.false_ne_true

theorem head?_trim {c : Char} (h : c ∈ (trim s).head?) : isBlank c = false := by
  have hpre : trim s <+: trimStart s := List.rdropWhile_prefix isBlank (trimStart s)
  have hc : c ∈ (trimStart s).head? := by
    obtain ⟨r, hr⟩ := hpre
    rw [← hr]
    cases ht : trim s with
    | nil => rw [ht] at h; cases h
    | cons d u => rw [ht] at h; simpa using h
  have hnot := List.head?_dropWhile_not isBlank s
  unfold trimStart at hc
  rw [hc] at hnot
  simpa using hnot

theorem getLast?_trim {c : Char} (h : c ∈ (trim s).getLast?) : isBlank c = false := by
  have hne : trim s ≠ [] := by
    intro h'
    rw [h'] at h
    cases h
  have hnot := List.rdropWhile_last_not isBlank (trimStart s) hne
  have hc : (trim s).getLast hne = c := by
    rw [List.getLast?_eq_some_getLast hne] at h
    simpa using h
  rw [← hc]
  exact Bool.eq_false_iff.2 hnot

/-- The trimmed texts are those that begin and end with no blank. -/
theorem trim_eq_self_iff : trim s = s ↔
    (∀ c ∈ s.head?, isBlank c = false) ∧ ∀ c ∈ s.getLast?, isBlank c = false := by
  constructor
  · intro h
    constructor
    · intro c hc
      exact head?_trim (s := s) (by rw [h]; exact hc)
    · intro c hc
      exact getLast?_trim (s := s) (by rw [h]; exact hc)
  · rintro ⟨hh, hl⟩
    exact trim_eq_self hh hl

/-- A space at the front does not count. -/
theorem trim_cons_space (s : List Char) : trim (' ' :: s) = trim s := trim_cons_of_blank rfl s

/-- A space at the end does not count. -/
theorem trim_append_space (s : List Char) : trim (s ++ [' ']) = trim s :=
  trim_append_of_blank s (List.forall_mem_singleton.2 rfl)

/-- Trimming gives a trimmed text. -/
@[simp] theorem trim_trim (s : List Char) : trim (trim s) = trim s :=
  trim_eq_self (fun _ h => head?_trim h) (fun _ h => getLast?_trim h)

/-- Trimming takes blanks away on both sides. -/
theorem exists_eq_append_trim (s : List Char) :
    ∃ front back, s = front ++ (trim s ++ back) ∧ (∀ c ∈ front, isBlank c = true) ∧
      ∀ c ∈ back, isBlank c = true := by
  refine ⟨s.takeWhile isBlank, (trimStart s).rtakeWhile isBlank, ?_, ?_, ?_⟩
  · have hback : trim s ++ (trimStart s).rtakeWhile isBlank = trimStart s :=
      List.rdropWhile_append_rtakeWhile
    rw [hback]
    exact List.takeWhile_append_dropWhile.symm
  · intro c hc
    exact List.mem_takeWhile_imp hc
  · intro c hc
    exact List.mem_rtakeWhile_imp hc

/-- Trimming adds no character. -/
theorem mem_of_mem_trim {c : Char} (h : c ∈ trim s) : c ∈ s :=
  (List.dropWhile_suffix isBlank).subset ((List.rdropWhile_prefix isBlank (trimStart s)).subset h)

end MailCss.Text
