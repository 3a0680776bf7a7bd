/-!
# Splitting sequences

Cutting a list at the first element of a kind, and at every one.

Main statements: `cutAt?_eq_some_iff` (the cut is at the first occurrence), `splitWhere_append`
(the parts of two lists joined by a separator are those of the first followed by those of the
second), `splitWhere_eq_singleton` (without separators there is one part), `flatten_splitWhere`
(the parts hold everything but the separators) and `not_of_mem_splitWhere` (no part holds a
separator).
-/

namespace MailCss.Sequence

variable {α : Type}

/-- The lists before and after the first `sep`, if there is one. -/
def cutAt? [DecidableEq α] (sep : α) : List α → Option (List α × List α)
  | [] => none
  | c :: r => if c = sep then some ([], r) else (cutAt? sep r).map fun (a, b) => (c :: a, b)

/-- An element in front of the first part. -/
def extend (c : α) : List (List α) → List (List α)
  | [] => [[c]]
  | p :: ps => (c :: p) :: ps

/-- The parts between the elements with property `p`; always one more than there are such
elements. -/
def splitWhere (p : α → Bool) : List α → List (List α)
  | [] => [[]]
  | c :: r => if p c then [] :: splitWhere p r else extend c (splitWhere p r)

/-- The cut is at the first occurrence of the separator. -/
theorem cutAt?_eq_some_iff [DecidableEq α] {sep : α} {s a b : List α} :
    cutAt? sep s = some (a, b) ↔ s = a ++ sep :: b ∧ sep ∉ a := by
  induction s generalizing a with
  | nil => simp [cutAt?]
  | cons c r ih =>
    by_cases h : c = sep
    · subst h
      cases a <;> simp +contextual [cutAt?, eq_comm]
    · cases a with
      | nil => simp [cutAt?, h]
      | cons x a =>
        simp only [cutAt?, h, if_false, Option.map_eq_some_iff, Prod.mk.injEq, List.cons.injEq,
          List.cons_append, List.mem_cons, Prod.exists]
        constructor
        · rintro ⟨a', b', h', ⟨rfl, rfl⟩, rfl⟩
          exact ⟨⟨rfl, (ih.1 h').1⟩, fun hm => hm.elim (fun e => h e.symm) (ih.1 h').2⟩
        · rintro ⟨⟨rfl, rfl⟩, hm⟩
          exact ⟨a, b, ih.2 ⟨rfl, fun h' => hm (.inr h')⟩, ⟨rfl, rfl⟩, rfl⟩

theorem splitWhere_ne_nil (p : α → Bool) (s : List α) : splitWhere p s ≠ [] := by
  cases s with
  | nil => simp [splitWhere]
  | cons c r =>
    rw [splitWhere]
    split
    · simp
    · cases splitWhere p r <;> simp [extend]

theorem extend_append {c : α} {ps qs : List (List α)} (h : ps ≠ []) :
    extend c (ps ++ qs) = extend c ps ++ qs := by
  cases ps with
  | nil => exact absurd rfl h
  | cons p ps => rfl

/-- The parts of two lists joined by a separator. -/
theorem splitWhere_append {p : α → Bool} {x : α} (hx : p x = true) (s t : List α) :
    splitWhere p (s ++ x :: t) = splitWhere p s ++ splitWhere p t := by
  induction s with
  | nil => simp [splitWhere, hx]
  | cons c r ih =>
    by_cases h : p c = true
    · simp [splitWhere, h, ih]
    · simp [splitWhere, h, ih, extend_append (splitWhere_ne_nil p r)]

/-- A list without separators is its only part. -/
theorem splitWhere_eq_singleton {p : α → Bool} {s : List α} (h : ∀ x ∈ s, p x = false) :
    splitWhere p s = [s] := by
  induction s with
  | nil => rfl
  | cons c r ih =>
    have hc : p c = false := h c List.mem_cons_self
    have hr : splitWhere p r = [r] := ih fun x hx => h x (List.mem_cons_of_mem _ hx)
    simp [splitWhere, hc, hr, extend]

/-- The parts hold everything but the separators. -/
theorem flatten_splitWhere (p : α → Bool) (s : List α) :
    (splitWhere p s).flatten = s.filter fun x => !p x := by
  induction s with
  | nil => rfl
  | cons c r ih =>
    by_cases h : p c = true
    · simp [splitWhere, h, ih]
    · have hs := splitWhere_ne_nil p r
      cases hr : splitWhere p r with
      | nil => exact absurd hr hs
      | cons q qs =>
        rw [hr] at ih
        simp only [List.flatten_cons] at ih
        simp [splitWhere, h, hr, extend, ih]

/-- No part holds a separator. -/
theorem not_of_mem_splitWhere {p : α → Bool} {s part : List α} {x : α}
    (hpart : part ∈ splitWhere p s) (hx : x ∈ part) : p x = false := by
  have hmem : x ∈ s.filter fun x => !p x := by
    rw [← flatten_splitWhere]
    exact List.mem_flatten.2 ⟨part, hpart, hx⟩
  simpa using (List.mem_filter.1 hmem).2

end MailCss.Sequence
