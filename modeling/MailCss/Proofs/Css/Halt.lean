import Mathlib.Data.List.TakeWhile
import MailCss.Css.Lossless

/-!
# Where names and numbers end

Most punctuation and white space halt the reading of a name or a number: behind a text, none of it
changes what was read (the `_halt` lemmas). Only a name that ends inside an escape may go on with
it; `Escape.run` says where in an escape a text ends, and `Escape.Spares` that it does not go on.

Main statements: the lemmas `_halt` of each kind of lexeme with a name or a number in it.
-/

namespace MailCss.Css

theorem takeWhile_append_of_head {p : Char → Bool} {r : List Char}
    (hr : ∀ c ∈ r.head?, p c = false) (s : List Char) :
    (s ++ r).takeWhile p = s.takeWhile p := by
  induction s with
  | nil =>
    cases r with
    | nil => rfl
    | cons c r => simp [hr c rfl]
  | cons a s ih => simp only [List.cons_append, List.takeWhile_cons, ih]

theorem dropWhile_append_of_head {p : Char → Bool} {r : List Char}
    (hr : ∀ c ∈ r.head?, p c = false) (s : List Char) :
    (s ++ r).dropWhile p = s.dropWhile p ++ r := by
  induction s with
  | nil =>
    cases r with
    | nil => rfl
    | cons c r => simp [hr c rfl]
  | cons a s ih =>
    simp only [List.cons_append, List.dropWhile_cons, ih]
    split <;> rfl

theorem startsIdent_cons {a : Char} {s : List Char} (hminus : a ≠ '-') (hslash : a ≠ '\\') :
    startsIdent (a :: s) = startsName a := by
  unfold startsIdent
  split
  · rename_i h
    cases h
  · rename_i h
    cases h
    exact absurd rfl hminus
  · rename_i h
    cases h
    exact absurd rfl hslash
  · rename_i h
    cases h
    rfl

theorem scanPunctuation_eq (c : Char) (r : List Char) :
    scanPunctuation c r =
      match matcher? c with
      | some t => if r.head? = some '=' then ⟨t, [c, '=']⟩ else ⟨single c, [c]⟩
      | none => ⟨single c, [c]⟩ := by
  unfold scanPunctuation
  cases matcher? c with
  | none => rfl
  | some t =>
    rcases r with _ | ⟨d, r⟩
    · rfl
    · by_cases hd : d = '='
      · subst hd
        rfl
      · simp [hd]

/-! ## Escapes -/

theorem isAlphanum_of_hexDigit? {c : Char} {d : Nat} (h : hexDigit? c = some d) :
    c.isAlphanum = true := by
  have halpha (h : ('a' ≤ c ∧ c ≤ 'f') ∨ ('A' ≤ c ∧ c ≤ 'F')) : c.isAlpha = true := by
    simp only [Char.le_def, UInt32.le_iff_toNat_le] at h
    show (decide (c.val ≥ 'A'.val ∧ c.val ≤ 'Z'.val) ||
      (decide (c.val ≥ 'a'.val) && decide (c.val ≤ 'z'.val))) = true
    simp only [Bool.or_eq_true, Bool.and_eq_true, decide_eq_true_eq, ge_iff_le,
      UInt32.le_iff_toNat_le]
    have hf : 'f'.val.toNat = 102 := rfl
    have hz : 'z'.val.toNat = 122 := rfl
    have hF : 'F'.val.toNat = 70 := rfl
    have hZ : 'Z'.val.toNat = 90 := rfl
    omega
  simp only [hexDigit?] at h
  rw [Char.isAlphanum, Bool.or_eq_true]
  split at h
  · rename_i hdigit
    exact .inr hdigit
  · split at h
    · rename_i hlower
      exact .inl (halpha (.inl hlower))
    · split at h
      · rename_i hupper
        exact .inl (halpha (.inr hupper))
      · cases h

namespace Escape

/-- The state after one more character. -/
def next (e : Escape) (c : Char) : Escape :=
  match e.claims c with
  | some e' => e'
  | none => if c = '\\' then .opened else .outside

/-- The state after a text. -/
def run (e : Escape) (s : List Char) : Escape := s.foldl next e

theorem run_append (e : Escape) (s t : List Char) : e.run (s ++ t) = (e.run s).run t := by
  simp [run]

/-- A text without backslashes leaves no escape open. -/
theorem run_outside_of_not_mem {s : List Char} (hs : '\\' ∉ s) :
    outside.run s = outside := by
  induction s with
  | nil => rfl
  | cons c s ih =>
    rw [List.mem_cons, not_or] at hs
    have hc : outside.next c = outside := by
      have hne : c ≠ '\\' := fun h => hs.1 h.symm
      simp [next, claims, hne]
    rw [run, List.foldl_cons, hc]
    exact ih hs.2

theorem run_cons (e : Escape) (c : Char) (s : List Char) : e.run (c :: s) = (e.next c).run s := rfl

/-- No escape in which the text `s` ends goes on in `r`. -/
def Spares (s r : List Char) : Prop := ∀ c ∈ r.head?, (outside.run s).claims c = none

/-- What stands in front of a text does not matter to its end if it has no backslash. -/
theorem spares_append {s t r : List Char} (hs : '\\' ∉ s) : Spares (s ++ t) r ↔ Spares t r := by
  rw [Spares, Spares, run_append, run_outside_of_not_mem hs]

theorem spares_of_not_mem {s : List Char} (hs : '\\' ∉ s) (r : List Char) : Spares s r := by
  intro c _
  rw [run_outside_of_not_mem hs]
  rfl

end Escape

section EscapedSpan

variable {stop : Char → List Char → Bool} {e : Escape} {s r : List Char}

/-- A text that is split is split at the same place whatever follows. -/
theorem escapedSpan_append_of_ne_nil (hstop : ∀ c t, c :: t <:+ s → stop c (t ++ r) = stop c t)
    (h : (escapedSpan stop e s).2 ≠ []) :
    escapedSpan stop e (s ++ r) = ((escapedSpan stop e s).1, (escapedSpan stop e s).2 ++ r) := by
  induction s generalizing e with
  | nil => exact absurd rfl h
  | cons a s ih =>
    have hstop' (c : Char) (t : List Char) (ht : c :: t <:+ s) : stop c (t ++ r) = stop c t :=
      hstop c t (ht.trans (List.suffix_cons a s))
    rw [escapedSpan] at h
    rw [List.cons_append, escapedSpan, escapedSpan]
    split
    · rename_i e' he'
      rw [he'] at h
      rw [ih hstop' h]
    · rename_i hnone
      rw [hnone] at h
      simp only [hstop a s (List.suffix_refl _)] at h ⊢
      split
      · rfl
      · rename_i hgo
        rw [if_neg hgo] at h
        rw [ih hstop' h]

/-- Behind a text that is not split, reading goes on in the state in which the text ends. -/
theorem escapedSpan_append_run (hstop : ∀ c t, c :: t <:+ s → stop c (t ++ r) = stop c t)
    (h : (escapedSpan stop e s).2 = []) :
    escapedSpan stop e (s ++ r) =
      (s ++ (escapedSpan stop (e.run s) r).1, (escapedSpan stop (e.run s) r).2) := by
  induction s generalizing e with
  | nil => rfl
  | cons a s ih =>
    have hstop' (c : Char) (t : List Char) (ht : c :: t <:+ s) : stop c (t ++ r) = stop c t :=
      hstop c t (ht.trans (List.suffix_cons a s))
    rw [escapedSpan] at h
    rw [List.cons_append, escapedSpan, Escape.run_cons]
    cases hclaims : e.claims a with
    | some e' =>
      rw [hclaims] at h
      have hnext : e.next a = e' := by rw [Escape.next, hclaims]
      simp only [ih hstop' h, hnext, List.cons_append]
    | none =>
      rw [hclaims] at h
      have hnext : e.next a = if a = '\\' then .opened else .outside := by
        rw [Escape.next, hclaims]
      simp only [hstop a s (List.suffix_refl _)] at h ⊢
      split
      · rename_i hstopped
        rw [if_pos hstopped] at h
        cases h
      · rename_i hgo
        rw [if_neg hgo] at h
        simp only [ih hstop' h, hnext, List.cons_append]

/-- A text that is not split is split off in front of what splits it. -/
theorem escapedSpan_append_of_eq_nil (hstop : ∀ c t, c :: t <:+ s → stop c (t ++ r) = stop c t)
    (h : (escapedSpan stop e s).2 = [])
    (hr : ∀ c t, r = c :: t → (e.run s).claims c = none ∧ stop c t = true) :
    escapedSpan stop e (s ++ r) = (s, r) := by
  rw [escapedSpan_append_run hstop h]
  rcases r with _ | ⟨c, t⟩
  · simp [escapedSpan]
  · obtain ⟨hclaims, hsplit⟩ := hr c t rfl
    simp [escapedSpan, hclaims, hsplit]

theorem escapedSpan_fst_of_eq_nil (h : (escapedSpan stop e s).2 = []) :
    (escapedSpan stop e s).1 = s := by
  have happend := escapedSpan_append stop e s
  rwa [h, List.append_nil] at happend

end EscapedSpan

/-! ## Parts of numbers have no escapes -/

theorem slash_not_mem_spanSign (s : List Char) : '\\' ∉ (spanSign s).1 := by
  rcases s with _ | ⟨c, s⟩
  · simp [spanSign]
  · rw [spanSign]
    split
    · rename_i hc
      rcases hc with rfl | rfl <;> simp
    · simp

theorem slash_not_mem_spanDigits (s : List Char) : '\\' ∉ (spanDigits s).1 := by
  intro hmem
  have hdigit : Char.isDigit '\\' = true := List.mem_takeWhile_imp hmem
  cases hdigit

theorem slash_not_mem_spanFraction (s : List Char) : '\\' ∉ (spanFraction s).1 := by
  rcases s with _ | ⟨c, s⟩
  · simp [spanFraction]
  · simp only [spanFraction]
    split
    · rename_i hc
      rw [hc.1, List.mem_cons, not_or]
      exact ⟨by decide, slash_not_mem_spanDigits s⟩
    · simp

theorem slash_not_mem_spanExponent (s : List Char) : '\\' ∉ (spanExponent s).1 := by
  rcases s with _ | ⟨c, s⟩
  · simp [spanExponent]
  · simp only [spanExponent]
    split
    · rename_i hc
      rw [List.mem_cons, List.mem_append, not_or, not_or]
      refine ⟨?_, slash_not_mem_spanSign _, slash_not_mem_spanDigits _⟩
      rintro rfl
      rcases hc.1 with hc | hc <;> cases hc
    · simp

/-- What stands behind a text does not make it begin with something else. -/
theorem take_append_iff {r w : List Char} (hr : ∀ c ∈ r.head?, c ∉ w) (t : List Char) :
    (t ++ r).take w.length = w ↔ t.take w.length = w := by
  induction w generalizing t with
  | nil => simp
  | cons b w ih =>
    rcases t with _ | ⟨a, t⟩
    · rcases r with _ | ⟨c, r⟩
      · rfl
      · have hc := hr c rfl
        rw [List.mem_cons, not_or] at hc
        simp [hc.1]
    · have hr' : ∀ c ∈ r.head?, c ∉ w := fun c hc hmem => hr c hc (List.mem_cons_of_mem _ hmem)
      simp [ih hr' t]

/-! ## What halts the reading of a text -/

/-- The characters that no lexeme but white space and broken ones go on with. -/
def halts (c : Char) : Bool :=
  !inName c && c ∉ ['\\', '(', '.', '%', '=', '*', '!', '>', '+', '\n', '\r', '\x0c']

/-- Nothing more, or a character that halts names and numbers. -/
def Halts (r : List Char) : Prop := ∀ c ∈ r.head?, halts c = true

/-- The characters that halt names and numbers, or that do so unless a backslash is in front of
them: the line breaks. -/
def inert (c : Char) : Bool :=
  !inName c && c ∉ ['\\', '(', '.', '%', '=', '*', '!', '>', '+']

/-- Nothing more, or an inert character. -/
def Inert (r : List Char) : Prop := ∀ c ∈ r.head?, inert c = true

/-- Behind `s`, what follows is inert, and where it is a line break, no backslash is in front. -/
structure Halted (s r : List Char) : Prop where
  inert : Inert r
  line : startsLine r = true → s.getLast? ≠ some '\\'

instance (r : List Char) : Decidable (Inert r) := Option.decidableForallMem r.head?

instance (s r : List Char) : Decidable (Halted s r) :=
  decidable_of_iff (Inert r ∧ (startsLine r = true → s.getLast? ≠ some '\\'))
    ⟨fun h => ⟨h.1, h.2⟩, fun h => ⟨h.inert, h.line⟩⟩

theorem Halts.inert {r : List Char} (hr : Halts r) : Inert r := by
  intro c hc
  have hhalts := hr c hc
  simp only [halts, Bool.and_eq_true, decide_eq_true_eq] at hhalts
  simp only [Css.inert, Bool.and_eq_true, decide_eq_true_eq]
  refine ⟨hhalts.1, fun hmem => hhalts.2 ?_⟩
  exact List.mem_append_left ['\n', '\r', '\x0c'] hmem

theorem Halts.startsLine {r : List Char} (hr : Halts r) : startsLine r = false := by
  rcases r with _ | ⟨c, t⟩
  · rfl
  · have hc : halts c = true := hr c rfl
    simp only [halts, Bool.and_eq_true, decide_eq_true_eq, List.mem_cons, not_or] at hc
    simp [Css.startsLine, isNewline, hc]

theorem Halts.halted {r : List Char} (hr : Halts r) (s : List Char) : Halted s r where
  inert := hr.inert
  line := by simp [hr.startsLine]

theorem Halted.of_suffix {s t r : List Char} (hr : Halted s r) (ht : t <:+ s) : Halted t r where
  inert := hr.inert
  line := by
    obtain ⟨u, rfl⟩ := ht
    intro hline hlast
    exact hr.line hline (by rw [List.getLast?_append, hlast]; rfl)

theorem Halted.tail {a : Char} {s r : List Char} (hr : Halted (a :: s) r) : Halted s r :=
  hr.of_suffix (List.suffix_cons a s)

section Inert

variable {r : List Char} (hr : Inert r)

include hr

theorem Inert.eq : r = [] ∨ ∃ c t, r = c :: t ∧ inName c = false ∧
    c ∉ ['\\', '(', '.', '%', '=', '*', '!', '>', '+'] := by
  rcases r with _ | ⟨c, t⟩
  · exact .inl rfl
  · have hc : inert c = true := hr c rfl
    rw [inert, Bool.and_eq_true, Bool.not_eq_true', decide_eq_true_eq] at hc
    exact .inr ⟨c, t, rfl, hc⟩

theorem Inert.head_ne {d : Char} (hd : d ∈ ['\\', '(', '.', '%', '=', '*', '!', '>', '+']) :
    r.head? ≠ some d := by
  rcases hr.eq with rfl | ⟨c, t, rfl, -, hmem⟩
  · simp
  · rintro ⟨⟩
    exact hmem hd

theorem Inert.inName_head : ∀ c ∈ r.head?, inName c = false := by
  rcases hr.eq with rfl | ⟨c, t, rfl, hname, -⟩
  · rintro c ⟨⟩
  · rintro d ⟨⟩
    exact hname

theorem Inert.isDigit_head : ∀ c ∈ r.head?, c.isDigit = false := by
  intro c hc
  have hname := hr.inName_head c hc
  simp only [inName, Bool.or_eq_false_iff] at hname
  exact hname.1.2

theorem spanSign_halt (s : List Char) :
    spanSign (s ++ r) = ((spanSign s).1, (spanSign s).2 ++ r) := by
  cases s with
  | nil =>
    rcases r with _ | ⟨c, t⟩
    · rfl
    · have hplus := hr.head_ne (d := '+') (by simp)
      have hminus : c ≠ '-' := by
        rintro rfl
        exact Bool.noConfusion (hr.inName_head '-' rfl)
      simp only [List.head?_cons, ne_eq, Option.some.injEq] at hplus
      simp [spanSign, hplus, hminus]
  | cons a s =>
    rw [List.cons_append, spanSign, spanSign]
    split <;> rfl

theorem spanDigits_halt (s : List Char) :
    spanDigits (s ++ r) = ((spanDigits s).1, (spanDigits s).2 ++ r) := by
  simp only [spanDigits, takeWhile_append_of_head hr.isDigit_head,
    dropWhile_append_of_head hr.isDigit_head]

theorem spanFraction_halt (s : List Char) :
    spanFraction (s ++ r) = ((spanFraction s).1, (spanFraction s).2 ++ r) := by
  cases s with
  | nil =>
    rcases r with _ | ⟨c, t⟩
    · rfl
    · have hpoint := hr.head_ne (d := '.') (by simp)
      simp only [List.head?_cons, ne_eq, Option.some.injEq] at hpoint
      simp [spanFraction, hpoint]
  | cons a s =>
    simp only [List.cons_append, spanFraction, spanDigits_halt hr]
    split <;> rfl

theorem spanExponent_halt (s : List Char) :
    spanExponent (s ++ r) = ((spanExponent s).1, (spanExponent s).2 ++ r) := by
  cases s with
  | nil =>
    rcases r with _ | ⟨c, t⟩
    · rfl
    · have hletter : ¬ (c = 'e' ∨ c = 'E') := by
        rintro (rfl | rfl) <;> exact Bool.noConfusion (hr.inName_head _ rfl)
      simp [spanExponent, hletter]
  | cons a s =>
    simp only [List.cons_append, spanExponent, spanSign_halt hr, spanDigits_halt hr]
    split <;> rfl

theorem startsNumber_halt (s : List Char) : startsNumber (s ++ r) = startsNumber s := by
  simp only [startsNumber, spanSign_halt hr, spanDigits_halt hr, spanFraction_halt hr]

theorem Inert.startsIdent : startsIdent r = false := by
  rcases hr.eq with rfl | ⟨c, t, rfl, hname, hmem⟩
  · rfl
  · have hminus : c ≠ '-' := by
      rintro rfl
      cases hname
    have hslash : c ≠ '\\' := by
      rintro rfl
      simp at hmem
    rw [startsIdent_cons hminus hslash]
    simp only [inName, Bool.or_eq_false_iff] at hname
    exact hname.1.1

theorem scanPunctuation_halt (c : Char) (s : List Char) :
    scanPunctuation c (s ++ r) = scanPunctuation c s := by
  have hhead : ((s ++ r).head? = some '=') = (s.head? = some '=') := by
    rcases s with _ | ⟨b, s⟩
    · have hne := hr.head_ne (d := '=') (by simp)
      simp [hne]
    · rfl
  simp only [scanPunctuation_eq, hhead]

end Inert

section Halted

variable {s r : List Char}

theorem startsLine_halt (hr : Halted ('\\' :: s) r) : startsLine (s ++ r) = startsLine s := by
  cases s with
  | nil => exact Bool.eq_false_iff.2 fun hline => hr.line hline rfl
  | cons a s => rfl

theorem startsIdent_halt (hr : Halted s r) : startsIdent (s ++ r) = startsIdent s := by
  rcases s with _ | ⟨a, s⟩
  · exact hr.inert.startsIdent
  -- Only behind a minus or a backslash does it matter what comes next.
  · by_cases hminus : a = '-'
    · subst hminus
      rcases s with _ | ⟨b, s⟩
      · rcases hr.inert.eq with rfl | ⟨c, t, rfl, hname, hmem⟩
        · rfl
        · have hdash : c ≠ '-' := by
            rintro rfl
            cases hname
          have hslash : c ≠ '\\' := by
            rintro rfl
            simp at hmem
          simp only [inName, Bool.or_eq_false_iff] at hname
          simp [Css.startsIdent, hname.1.1, hdash, hslash]
          decide
      · rfl
    · by_cases hslash : a = '\\'
      · subst hslash
        simp only [List.cons_append, Css.startsIdent, startsLine_halt hr]
      · rw [List.cons_append, startsIdent_cons hminus hslash, startsIdent_cons hminus hslash]

/-- A name ends where it ends, unless it ends inside an escape that goes on. -/
theorem spanName_halt (hr : Halted s r) (h : (spanName s).2 = [] → Escape.Spares s r) :
    spanName (s ++ r) = ((spanName s).1, (spanName s).2 ++ r) := by
  have hstop (c : Char) (t : List Char) (ht : c :: t <:+ s) :
      endsName c (t ++ r) = endsName c t := by
    by_cases hc : c = '\\'
    · subst hc
      simp only [endsName, startsLine_halt (hr.of_suffix ht)]
    · simp [endsName, hc]
  by_cases hnil : (spanName s).2 = []
  · have hwhole : (spanName s).1 = s := escapedSpan_fst_of_eq_nil hnil
    rw [hnil, hwhole]
    refine escapedSpan_append_of_eq_nil hstop hnil ?_
    rintro c t rfl
    have hname := hr.inert.inName_head c rfl
    have hslash := hr.inert.head_ne (d := '\\') (by simp)
    simp only [List.head?_cons, ne_eq, Option.some.injEq] at hslash
    exact ⟨h hnil c rfl, by simp [endsName, hname, hslash]⟩
  · exact escapedSpan_append_of_ne_nil hstop hnil

theorem scanHash_halt (hr : Halted s r)
    (h : (scanHash s).source = '#' :: s → Escape.Spares s r) :
    scanHash (s ++ r) = scanHash s := by
  have hhead : (s ++ r).head?.any (fun c => c.isDigit || c = '-') =
      s.head?.any (fun c => c.isDigit || c = '-') := by
    rcases s with _ | ⟨b, s⟩
    · rcases r with _ | ⟨c, t⟩
      · rfl
      · have hname := hr.inert.inName_head c rfl
        simp only [inName, Bool.or_eq_false_iff] at hname
        simp [hname.1.2, hname.2]
    · simp
  -- The name matters only where the lexeme holds it.
  have hname (hhold : (scanHash s).source = '#' :: (spanName s).1) :
      spanName (s ++ r) = ((spanName s).1, (spanName s).2 ++ r) := by
    refine spanName_halt hr fun hnil => ?_
    have hwhole : (spanName s).1 = s := escapedSpan_fst_of_eq_nil hnil
    rw [hwhole] at hhold
    exact h hhold
  simp only [scanHash, startsIdent_halt hr, hhead] at hname ⊢
  split
  · rename_i hident
    rw [hname (by simp [hident])]
  · rename_i hident
    split
    · rename_i hdigit
      rw [hname (by simp [hident, hdigit])]
    · rfl

theorem scanAt_halt (hr : Halted s r) (h : (scanAt s).source = '@' :: s → Escape.Spares s r) :
    scanAt (s ++ r) = scanAt s := by
  simp only [scanAt, startsIdent_halt hr] at h ⊢
  split
  · rename_i hident
    rw [if_pos hident] at h
    have hname : spanName (s ++ r) = ((spanName s).1, (spanName s).2 ++ r) := by
      refine spanName_halt hr fun hnil => ?_
      have hwhole : (spanName s).1 = s := escapedSpan_fst_of_eq_nil hnil
      exact h (by rw [hwhole])
    rw [hname]
  · rfl

theorem scanNumeric_halt (hr : Halted s r) (h : (scanNumeric s).source = s → Escape.Spares s r) :
    scanNumeric (s ++ r) = scanNumeric s := by
  have hsign := spanSign_append s
  have hwhole := spanDigits_append (spanSign s).2
  have hfraction := spanFraction_append (spanDigits (spanSign s).2).2
  have hexponent := spanExponent_append (spanFraction (spanDigits (spanSign s).2).2).2
  simp only [scanNumeric, spanSign_halt hr.inert, spanDigits_halt hr.inert,
    spanFraction_halt hr.inert, spanExponent_halt hr.inert] at h ⊢
  -- The digits, and the rest behind them, which may begin with a unit.
  generalize htext : (spanSign s).1 ++ (spanDigits (spanSign s).2).1 ++
    (spanFraction (spanDigits (spanSign s).2).2).1 ++
    (spanExponent (spanFraction (spanDigits (spanSign s).2).2).2).1 = text at h ⊢
  generalize hrest : (spanExponent (spanFraction (spanDigits (spanSign s).2).2).2).2 = rest at *
  have hs : s = text ++ rest := by
    conv => lhs; rw [← hsign, ← hwhole, ← hfraction, ← hexponent]
    rw [← htext]
    simp
  have hrest : Halted rest r := hr.of_suffix ⟨text, hs.symm⟩
  have hslash : '\\' ∉ text := by
    rw [← htext]
    simp only [List.mem_append, not_or]
    exact ⟨⟨⟨slash_not_mem_spanSign _, slash_not_mem_spanDigits _⟩,
      slash_not_mem_spanFraction _⟩, slash_not_mem_spanExponent _⟩
  have hpercent : ((rest ++ r).head? = some '%') = (rest.head? = some '%') := by
    rcases rest with _ | ⟨b, t⟩
    · have hne := hr.inert.head_ne (d := '%') (by simp)
      simp [hne]
    · rfl
  simp only [hpercent, startsIdent_halt hrest]
  split
  · rfl
  · rename_i hnot
    rw [if_neg hnot] at h
    split
    · rename_i hident
      rw [if_pos hident] at h
      have hname : spanName (rest ++ r) = ((spanName rest).1, (spanName rest).2 ++ r) := by
        refine spanName_halt hrest fun hnil => ?_
        have hunit : (spanName rest).1 = rest := escapedSpan_fst_of_eq_nil hnil
        have hspares : Escape.Spares s r := h (by rw [hunit, hs])
        rwa [hs, Escape.spares_append hslash] at hspares
      rw [hname]
    · rfl

/-- What a text begins with decides how its first lexeme is read, also in front of what halts. -/
theorem scan_halt {a : Char} (hr : Halted (a :: s) r) :
    scan a (s ++ r) =
      if isSpace a then
        ⟨.whitespace (String.ofList ((a :: (s ++ r)).takeWhile isSpace)),
          (a :: (s ++ r)).takeWhile isSpace⟩
      else if a = '/' ∧ s.head? = some '*' then scanComment ((s ++ r).drop 1)
      else if a = '"' ∨ a = '\'' then scanString a (s ++ r)
      else if a = '#' then scanHash (s ++ r)
      else if a = '@' then scanAt (s ++ r)
      else if startsNumber (a :: s) then scanNumeric (a :: (s ++ r))
      else if (a :: s).take 3 = ['-', '-', '>'] then ⟨.commentClose, ['-', '-', '>']⟩
      else if (a :: s).take 4 = ['<', '!', '-', '-'] then ⟨.commentOpen, ['<', '!', '-', '-']⟩
      else if startsIdent (a :: s) then scanIdentLike (a :: (s ++ r))
      else scanPunctuation a s := by
  have hcomment : ((s ++ r).head? = some '*') = (s.head? = some '*') := by
    rcases s with _ | ⟨b, s⟩
    · have hne := hr.inert.head_ne (d := '*') (by simp)
      simp [hne]
    · rfl
  have hnumber : startsNumber (a :: (s ++ r)) = startsNumber (a :: s) :=
    startsNumber_halt hr.inert (a :: s)
  have hident : startsIdent (a :: (s ++ r)) = startsIdent (a :: s) := startsIdent_halt hr
  have hmem {w : List Char} (hw : w.any inert = false) : ∀ c ∈ r.head?, c ∉ w :=
    fun c hc hmem => List.any_eq_false.1 hw c hmem (hr.inert c hc)
  have hcdc : (s ++ r).take 2 = ['-', '>'] ↔ s.take 2 = ['-', '>'] :=
    take_append_iff (w := ['-', '>']) (hmem (by decide)) s
  have hcdo : (s ++ r).take 3 = ['!', '-', '-'] ↔ s.take 3 = ['!', '-', '-'] :=
    take_append_iff (w := ['!', '-', '-']) (hmem (by decide)) s
  simp only [scan, hcomment, hnumber, hident, List.take_succ_cons, List.cons.injEq, hcdc, hcdo,
    scanPunctuation_halt hr.inert]

end Halted

end MailCss.Css
