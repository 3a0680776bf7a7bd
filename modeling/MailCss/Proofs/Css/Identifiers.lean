import MailCss.Css.Written
import MailCss.Proofs.Css.Nesting
import MailCss.Proofs.Css.Stop

/-!
# Written names and strings are read back

A name that is written with its escapes is one identifier, whatever ends names behind it, and a
string that is written is one string. A longer name goes on with a shorter one that is written in
front of it, since no escape is left open at its end.
-/

namespace MailCss.Css

/-! ## Texts that are taken whole -/

/-- Reading up to `stop` takes all of `w` and leaves no escape open. -/
structure Spans (stop : Char → List Char → Bool) (w : List Char) : Prop where
  whole : (escapedSpan stop .outside w).2 = []
  closed : Escape.outside.run w = .outside

instance (stop : Char → List Char → Bool) (w : List Char) : Decidable (Spans stop w) :=
  decidable_of_iff ((escapedSpan stop .outside w).2 = [] ∧ Escape.outside.run w = .outside)
    ⟨fun h => ⟨h.1, h.2⟩, fun h => ⟨h.whole, h.closed⟩⟩

namespace Spans

variable {stop : Char → List Char → Bool} {v w r : List Char}

theorem nil : Spans stop [] := ⟨rfl, rfl⟩

theorem escapedSpan_append (h : Spans stop w) (hstop : ∀ c t, stop c (t ++ r) = stop c t) :
    escapedSpan stop .outside (w ++ r) =
      (w ++ (escapedSpan stop .outside r).1, (escapedSpan stop .outside r).2) := by
  rw [escapedSpan_append_run (fun c t _ => hstop c t) h.whole, h.closed]

theorem append (hv : Spans stop v) (hw : Spans stop w) (hstop : ∀ c t, stop c (t ++ w) = stop c t) :
    Spans stop (v ++ w) where
  whole := by rw [hv.escapedSpan_append hstop, hw.whole]
  closed := by rw [Escape.run_append, hv.closed, hw.closed]

/-- A character that neither stops reading nor begins an escape. -/
theorem singleton {c : Char} (hc : c ≠ '\\') (hstop : stop c [] = false) : Spans stop [c] where
  whole := by simp [escapedSpan, Escape.claims, hstop]
  closed := by simp [Escape.run, Escape.next, Escape.claims, hc]

end Spans

/-! ## Names -/

/-- A text that is a name or part of one. -/
abbrev IsName (w : List Char) : Prop := Spans endsName w

/-- Nothing more, or a character that ends a name. -/
def EndsNames (r : List Char) : Prop :=
  ∀ c ∈ r.head?, inName c = false ∧ c ∉ ['\\', '\n', '\r', '\x0c']

/-- Nothing more, or a character that ends an identifier and makes nothing else of it. -/
def EndsIdents (r : List Char) : Prop := EndsNames r ∧ ∀ c ∈ r.head?, c ≠ '(' ∧ c ≠ '>'

theorem EndsNames.startsLine {r : List Char} (h : EndsNames r) : startsLine r = false := by
  rcases r with _ | ⟨c, r⟩
  · rfl
  · have hc := (h c rfl).2
    simp only [List.mem_cons, not_or] at hc
    simp [Css.startsLine, isNewline, hc]

theorem endsName_append {r : List Char} (h : startsLine r = false) (c : Char) (t : List Char) :
    endsName c (t ++ r) = endsName c t := by
  rcases t with _ | ⟨b, t⟩
  · rw [List.nil_append, endsName, endsName, h]
    rfl
  · rfl

namespace IsName

variable {v w r : List Char}

theorem startsLine (h : IsName w) : startsLine w = false := by
  rcases w with _ | ⟨c, w⟩
  · rfl
  · rw [Css.startsLine, ← Bool.not_eq_true]
    intro hline
    have hwhole := h.whole
    simp only [isNewline, Bool.or_eq_true, decide_eq_true_eq] at hline
    rcases hline with (rfl | rfl) | rfl <;> cases hwhole

theorem append (hv : IsName v) (hw : IsName w) : IsName (v ++ w) :=
  Spans.append hv hw (endsName_append hw.startsLine)

/-- A name is read up to what ends it. -/
theorem spanName_append (h : IsName w) (hr : EndsNames r) : spanName (w ++ r) = (w, r) := by
  have hnone : escapedSpan endsName .outside r = ([], r) := by
    rcases r with _ | ⟨c, r⟩
    · rfl
    · obtain ⟨hname, hc⟩ := hr c rfl
      simp only [List.mem_cons, not_or] at hc
      simp [escapedSpan, Escape.claims, endsName, hname, hc]
  rw [spanName, h.escapedSpan_append (endsName_append hr.startsLine), hnone, List.append_nil]

theorem of_inName {c : Char} (hc : inName c = true) : IsName [c] := by
  refine Spans.singleton ?_ (by simp [endsName, hc])
  rintro rfl
  cases hc

end IsName

namespace Written

theorem toNat_lt_of_isControl {c : Char} (h : isControl c = true) : c.toNat < 128 := by
  simp only [isControl, Bool.or_eq_true, decide_eq_true_eq] at h
  omega

theorem isNewline_of_isControl_eq_false {c : Char} (h : isControl c = false) :
    isNewline c = false := by
  rw [← Bool.not_eq_true]
  intro hline
  simp only [isNewline, Bool.or_eq_true, decide_eq_true_eq] at hline
  rcases hline with (rfl | rfl) | rfl <;> cases h

/-- The code of an ASCII character is a name. -/
theorem isName_codeEscape {c : Char} (h : c.toNat < 128) : IsName (codeEscape c) := by
  have hall : ∀ n < 128, IsName (codeEscape (Char.ofNat n)) := by decide +kernel
  have hc := hall c.toNat h
  rwa [Char.ofNat_toNat] at hc

theorem inName_of_isPlain {c : Char} (h : isPlain c = true) : inName c = true := by
  simp only [isPlain, Char.isAlphanum, Bool.or_eq_true, decide_eq_true_eq] at h
  rw [inName, startsName]
  rcases h with (((h | h) | h) | h) | h <;> simp [h]

theorem hexDigit?_of_not_isPlain {c : Char} (h : isPlain c = false) : hexDigit? c = none := by
  cases hdigit : hexDigit? c with
  | none => rfl
  | some d =>
    rw [isPlain, isAlphanum_of_hexDigit? hdigit] at h
    cases h

theorem isName_nameChar (c : Char) : IsName (nameChar c) := by
  rw [nameChar]
  split_ifs with hplain hnul hcontrol
  · exact IsName.of_inName (inName_of_isPlain hplain)
  · decide +kernel
  · exact isName_codeEscape (toNat_lt_of_isControl hcontrol)
  · have hhex := hexDigit?_of_not_isPlain (by simpa using hplain)
    have hline := isNewline_of_isControl_eq_false (by simpa using hcontrol)
    have hreturn : c ≠ '\r' := by
      rintro rfl
      cases hline
    have hslash : Escape.outside.next '\\' = .opened := rfl
    have hliteral : Escape.opened.claims c = some .outside := by
      simp [Escape.claims, hhex, hreturn]
    constructor
    · have hspan : escapedSpan endsName .opened [c] = ([c], []) := by
        rw [escapedSpan, hliteral]
        rfl
      have hstop : endsName '\\' [c] = false := hline
      rw [escapedSpan]
      simp [Escape.claims, hstop, hspan]
    · rw [Escape.run_cons, hslash, Escape.run_cons, Escape.next, hliteral]
      rfl

theorem isName_name (s : List Char) : IsName (name s) := by
  induction s with
  | nil => exact Spans.nil
  | cons c s ih => exact (isName_nameChar c).append ih

theorem toNat_lt_of_isDigit {c : Char} (h : c.isDigit = true) : c.toNat < 58 := by
  simp only [Char.isDigit, Bool.and_eq_true, decide_eq_true_eq, UInt32.le_iff_toNat_le] at h
  have hnine : '9'.val.toNat = 57 := rfl
  have hc : c.toNat = c.val.toNat := rfl
  omega

theorem isName_identTail (s : List Char) : IsName (identTail s) := by
  rcases s with _ | ⟨c, s⟩
  · exact Spans.nil
  · rw [identTail]
    split
    · rename_i hdigit
      have hlt := toNat_lt_of_isDigit hdigit
      exact (isName_codeEscape (by omega)).append (isName_name s)
    · exact isName_name _

/-- A written identifier is a name. -/
theorem isName_ident (s : List Char) : IsName (ident s) := by
  rw [ident.eq_def]
  split
  · decide +kernel
  · exact (IsName.of_inName rfl).append ((IsName.of_inName rfl).append (isName_name _))
  · exact (IsName.of_inName rfl).append (isName_identTail _)
  · exact isName_identTail s

end Written

/-! ## Identifiers -/

theorem startsName_of_isPlain {c : Char} (h : Written.isPlain c = true) (hdigit : c.isDigit = false)
    (hminus : c ≠ '-') : startsName c = true := by
  simp only [Written.isPlain, Char.isAlphanum, Bool.or_eq_true, decide_eq_true_eq] at h
  rw [startsName]
  rcases h with (((h | h) | h) | h) | h
  · simp [h]
  · rw [h] at hdigit
    cases hdigit
  · simp [h]
  · exact absurd h hminus
  · simp [h]

theorem isDigit_of_startsName {c : Char} (h : startsName c = true) : c.isDigit = false := by
  rw [← Bool.not_eq_true]
  intro hdigit
  have hall : ∀ n < 58, (Char.ofNat n).isDigit = true → startsName (Char.ofNat n) = false := by
    decide
  have hfalse := hall c.toNat (Written.toNat_lt_of_isDigit hdigit) (by rwa [Char.ofNat_toNat])
  rw [Char.ofNat_toNat, h] at hfalse
  cases hfalse

namespace Written

/-- What an identifier begins with. -/
def startsWritten (c : Char) : Bool := startsName c || c = '\\'

theorem startsWritten_nameChar {c : Char} (hdigit : c.isDigit = false) (hminus : c ≠ '-') :
    ∃ d t, nameChar c = d :: t ∧ startsWritten d = true := by
  rw [nameChar]
  split_ifs with hplain hnul hcontrol
  · exact ⟨c, [], rfl, by simp [startsWritten, startsName_of_isPlain hplain hdigit hminus]⟩
  · exact ⟨_, [], rfl, by decide⟩
  · exact ⟨'\\', _, rfl, rfl⟩
  · exact ⟨'\\', _, rfl, rfl⟩

theorem startsWritten_identTail {c : Char} (hminus : c ≠ '-') (s : List Char) :
    ∃ d t, identTail (c :: s) = d :: t ∧ startsWritten d = true := by
  rw [identTail]
  split
  · exact ⟨'\\', _, rfl, rfl⟩
  · rename_i hdigit
    obtain ⟨d, t, hchar, hd⟩ := startsWritten_nameChar (by simpa using hdigit) hminus
    exact ⟨d, t ++ name s, by rw [name, List.flatMap_cons, hchar]; rfl, hd⟩

end Written

/-- A name that begins like an identifier does so whatever is behind it. -/
theorem IsName.startsIdent_append {w : List Char} (h : IsName w) (hs : startsIdent w = true)
    (r : List Char) : startsIdent (w ++ r) = true := by
  rcases w with _ | ⟨c, w⟩
  · cases hs
  by_cases hminus : c = '-'
  · subst hminus
    rcases w with _ | ⟨b, w⟩
    · cases hs
    · exact hs
  by_cases hslash : c = '\\'
  · subst hslash
    rcases w with _ | ⟨b, w⟩
    · have hclosed := h.closed
      cases hclosed
    · exact hs
  · rw [startsIdent_cons hminus hslash] at hs
    rw [List.cons_append, startsIdent_cons hminus hslash, hs]

/-- A name that begins with the character of a written identifier begins with an identifier. -/
theorem IsName.startsIdent_of_startsWritten {d : Char} {t : List Char} (h : IsName (d :: t))
    (hd : Written.startsWritten d = true) : startsIdent (d :: t) = true := by
  by_cases hslash : d = '\\'
  · subst hslash
    rw [startsIdent, Bool.not_eq_true', ← Bool.not_eq_true]
    intro hline
    have hwhole := h.whole
    simp [escapedSpan, Escape.claims, endsName, hline, inName, startsName] at hwhole
  · have hstart : startsName d = true := by simpa [Written.startsWritten, hslash] using hd
    have hminus : d ≠ '-' := by
      rintro rfl
      cases hstart
    rw [startsIdent_cons hminus hslash, hstart]

/-- What is written as an identifier begins with one. -/
theorem startsIdent_ident {s : List Char} (hs : s ≠ []) : startsIdent (Written.ident s) = true := by
  have hname := Written.isName_ident s
  rw [Written.ident.eq_def] at hname ⊢
  split at hname
  · rfl
  · rfl
  · rename_i r hne hne'
    obtain ⟨c, r, rfl⟩ := List.exists_cons_of_ne_nil (l := r) (by rintro rfl; exact hne rfl)
    have hminus : c ≠ '-' := by
      rintro rfl
      exact hne' r rfl
    obtain ⟨d, t, htail, hd⟩ := Written.startsWritten_identTail hminus r
    rw [Written.startsWritten, Bool.or_eq_true, decide_eq_true_eq] at hd
    rw [htail]
    rcases hd with hd | hd <;> simp [startsIdent, hd]
  · rename_i hne
    obtain ⟨c, r, rfl⟩ := List.exists_cons_of_ne_nil hs
    have hminus : c ≠ '-' := by
      rintro rfl
      exact hne r rfl
    obtain ⟨d, t, htail, hd⟩ := Written.startsWritten_identTail hminus r
    rw [htail] at hname ⊢
    exact hname.startsIdent_of_startsWritten hd

/-- Behind its sign, a number begins with a digit or a point. -/
theorem startsNumber_eq_false {s r : List Char} {c : Char} (hs : (spanSign s).2 = c :: r)
    (hdigit : c.isDigit = false) (hpoint : c ≠ '.') : startsNumber s = false := by
  simp [startsNumber, hs, spanDigits, hdigit, spanFraction, hpoint]

/-- What stands at the front of an identifier: the beginning of a name, a minus or an escape. -/
theorem startsName_of_startsIdent {c : Char} {r : List Char} (h : startsIdent (c :: r) = true) :
    startsName c = true ∨ c = '-' ∨ c = '\\' := by
  by_cases hminus : c = '-'
  · exact .inr (.inl hminus)
  · by_cases hslash : c = '\\'
    · exact .inr (.inr hslash)
    · rw [startsIdent_cons hminus hslash] at h
      exact .inl h

section Front

variable {c d : Char} (hc : startsName c = true ∨ c = '-' ∨ c = '\\')

include hc

theorem ne_of_startsFront (hd : startsName d = false) (hd' : d ≠ '-' ∧ d ≠ '\\') : c ≠ d := by
  rintro rfl
  rcases hc with hc | hc | hc
  · rw [hc] at hd
    cases hd
  · exact hd'.1 hc
  · exact hd'.2 hc

theorem isSpace_of_startsFront : isSpace c = false := by
  have hne {d : Char} (hd : startsName d = false) (hd' : d ≠ '-' ∧ d ≠ '\\') : c ≠ d :=
    ne_of_startsFront hc hd hd'
  simp [isSpace, hne (d := ' ') rfl (by decide), hne (d := '\t') rfl (by decide),
    hne (d := '\n') rfl (by decide), hne (d := '\r') rfl (by decide),
    hne (d := '\x0c') rfl (by decide)]

theorem isDigit_of_startsFront : c.isDigit = false := by
  rcases hc with hc | rfl | rfl
  · exact isDigit_of_startsName hc
  · rfl
  · rfl

end Front

/-- Where an identifier begins, it is read, unless it is the end of a comment of HTML. -/
theorem scan_of_startsIdent {c : Char} {r : List Char} (h : startsIdent (c :: r) = true)
    (hclose : (c :: r).take 3 ≠ ['-', '-', '>']) : scan c r = scanIdentLike (c :: r) := by
  have hc := startsName_of_startsIdent h
  have hne {d : Char} (hd : startsName d = false) (hd' : d ≠ '-' ∧ d ≠ '\\') : c ≠ d :=
    ne_of_startsFront hc hd hd'
  have hspace := isSpace_of_startsFront hc
  have hnumber : startsNumber (c :: r) = false := by
    by_cases hminus : c = '-'
    · subst hminus
      rcases r with _ | ⟨b, r⟩
      · rfl
      · have hb : startsName b = true ∨ b = '-' ∨ b = '\\' := by
          simpa [startsIdent, or_assoc] using h
        exact startsNumber_eq_false (c := b) (r := r) rfl (isDigit_of_startsFront hb)
          (ne_of_startsFront hb rfl (by decide))
    · have hsign : (spanSign (c :: r)).2 = c :: r := by
        simp [spanSign, hminus, hne (d := '+') rfl (by decide)]
      exact startsNumber_eq_false hsign (isDigit_of_startsFront hc) (hne rfl (by decide))
  rw [scan]
  simp only [hspace, hnumber, hclose, h]
  simp [hne (d := '/') rfl (by decide), hne (d := '"') rfl (by decide),
    hne (d := '\'') rfl (by decide), hne (d := '#') rfl (by decide),
    hne (d := '@') rfl (by decide), hne (d := '<') rfl (by decide)]

section Lexemes

variable {w r : List Char}

/-- A text that is an identifier on its own. -/
structure IsIdent (w : List Char) : Prop where
  name : IsName w
  starts : startsIdent w = true

instance (w : List Char) : Decidable (IsIdent w) :=
  decidable_of_iff (IsName w ∧ startsIdent w = true) ⟨fun h => ⟨h.1, h.2⟩, fun h => ⟨h.name, h.starts⟩⟩

theorem isIdent_ident {s : List Char} (hs : s ≠ []) : IsIdent (Written.ident s) :=
  ⟨Written.isName_ident s, startsIdent_ident hs⟩

/-- An identifier that goes on with another name is an identifier. -/
theorem IsIdent.append {v : List Char} (hv : IsIdent v) (hw : IsName w) : IsIdent (v ++ w) :=
  ⟨hv.name.append hw, hv.name.startsIdent_append hv.starts w⟩

theorem IsIdent.ne_nil (h : IsIdent w) : w ≠ [] := by
  rintro rfl
  cases h.starts

/-- An identifier begins neither with a digit nor with white space. -/
theorem IsIdent.head (h : IsIdent w) : ∀ c ∈ w.head?, c.isDigit = false ∧ isSpace c = false := by
  rcases w with _ | ⟨c, w⟩
  · rintro c ⟨⟩
  · rintro c ⟨⟩
    have hc := startsName_of_startsIdent h.starts
    exact ⟨isDigit_of_startsFront hc, isSpace_of_startsFront hc⟩

theorem IsIdent.scan (h : IsIdent w) (hr : EndsNames r) (hgt : ∀ c ∈ r.head?, c ≠ '>') :
    ∃ c t, w ++ r = c :: t ∧ scan c t = scanIdentLike (w ++ r) := by
  obtain ⟨c, v, rfl⟩ := List.exists_cons_of_ne_nil h.ne_nil
  refine ⟨c, v ++ r, rfl, ?_⟩
  have hident := h.name.startsIdent_append h.starts r
  rw [List.cons_append] at hident
  refine scan_of_startsIdent hident ?_
  -- Only a character that is not in the name could make the end of a comment of two minuses.
  intro hclose
  rw [List.take_succ_cons, List.cons.injEq] at hclose
  obtain ⟨rfl, hclose⟩ := hclose
  rcases v with _ | ⟨b, v⟩
  · cases h.starts
  rw [List.cons_append, List.take_succ_cons, List.cons.injEq] at hclose
  obtain ⟨rfl, hclose⟩ := hclose
  rcases v with _ | ⟨d, v⟩
  · rcases r with _ | ⟨d, r⟩
    · cases hclose
    · exact hgt d rfl (List.cons.inj hclose).1
  · obtain ⟨rfl, -⟩ := List.cons.inj hclose
    have hwhole := h.name.whole
    cases hwhole

/-- An identifier is one lexeme. -/
theorem lexemes_ident (h : IsIdent w) (hr : EndsIdents r) :
    lexemes (w ++ r) = ⟨.ident (String.ofList (unescape w)), w⟩ :: lexemes r := by
  obtain ⟨c, t, heq, hscan⟩ := h.scan hr.1 fun c hc => (hr.2 c hc).2
  have hspan := h.name.spanName_append hr.1
  rw [scanIdentLike_ident, hspan] at hscan
  · rw [heq]
    exact lexemes_eq_cons hscan heq.symm
  · rw [hspan]
    intro hparen
    exact (hr.2 _ hparen).1 rfl

/-- A number sign and an identifier are one lexeme. -/
theorem lexemes_idHash (h : IsIdent w) (hr : EndsNames r) :
    lexemes ('#' :: (w ++ r)) =
      ⟨.idHash (String.ofList (unescape w)), '#' :: w⟩ :: lexemes r := by
  have hscan : scan '#' (w ++ r) = ⟨.idHash (String.ofList (unescape w)), '#' :: w⟩ := by
    have hhash : scan '#' (w ++ r) = scanHash (w ++ r) := rfl
    rw [hhash, scanHash, h.name.spanName_append hr]
    simp [h.name.startsIdent_append h.starts r]
  exact lexemes_eq_cons hscan rfl

end Lexemes

/-! ## What a written name means -/

/-- The meaning of a text that leaves no escape open does not depend on what is behind it. -/
theorem unescapeFrom_append {atEnd : List Char} {e : Escape} {v : List Char}
    (h : e.run v = .outside) (w : List Char) :
    unescapeFrom atEnd e (v ++ w) = unescapeFrom atEnd e v ++ unescapeFrom atEnd .outside w := by
  induction v generalizing e with
  | nil =>
    obtain rfl : e = .outside := h
    rfl
  | cons c v ih =>
    rw [Escape.run_cons, Escape.next] at h
    rw [List.cons_append, unescapeFrom, unescapeFrom, List.append_assoc]
    congr 1
    cases hclaims : e.claims c with
    | some e' =>
      simp only [hclaims] at h
      exact ih h
    | none =>
      simp only [hclaims] at h
      dsimp only
      split at h
      · rename_i hslash
        rw [if_pos hslash, if_pos hslash, ih h]
      · rename_i hslash
        rw [if_neg hslash, if_neg hslash, ih h, List.cons_append]

theorem unescape_append {v : List Char} (h : IsName v) (w : List Char) :
    unescape (v ++ w) = unescape v ++ unescape w :=
  unescapeFrom_append h.closed w

namespace Written

/-- The code of an ASCII character means that character. -/
theorem unescape_codeEscape {c : Char} (h : c.toNat < 128) :
    unescape (codeEscape c) = [if c = '\x00' then replacement else c] := by
  have hall : ∀ n < 128, unescape (codeEscape (Char.ofNat n)) =
      [if Char.ofNat n = '\x00' then replacement else Char.ofNat n] := by
    decide +kernel
  have hc := hall c.toNat h
  rwa [Char.ofNat_toNat] at hc

theorem unescape_nameChar (c : Char) : unescape (nameChar c) = [literal c] := by
  rw [nameChar]
  split_ifs with hplain hnul hcontrol
  · have hslash : c ≠ '\\' := by
      rintro rfl
      cases hplain
    simp [unescape, unescapeFrom, Escape.meaning, Escape.claims, hslash, Escape.finish]
  · rw [hnul]
    decide
  · exact unescape_codeEscape (toNat_lt_of_isControl hcontrol)
  · have hhex := hexDigit?_of_not_isPlain (by simpa using hplain)
    have hline := isNewline_of_isControl_eq_false (by simpa using hcontrol)
    have hreturn : c ≠ '\r' := by
      rintro rfl
      cases hline
    simp [unescape, unescapeFrom, Escape.meaning, Escape.claims, hhex, hline, hreturn,
      Escape.finish]

theorem unescape_name (s : List Char) : unescape (name s) = s.map literal := by
  induction s with
  | nil => rfl
  | cons c s ih =>
    rw [name, List.flatMap_cons, unescape_append (isName_nameChar c), unescape_nameChar]
    exact congrArg (literal c :: ·) ih

theorem unescape_identTail (s : List Char) : unescape (identTail s) = s.map literal := by
  rcases s with _ | ⟨c, s⟩
  · rfl
  · rw [identTail]
    split
    · rename_i hdigit
      have hlt : c.toNat < 128 := (toNat_lt_of_isDigit hdigit).trans (by decide)
      rw [unescape_append (isName_codeEscape hlt), unescape_codeEscape hlt, unescape_name]
      rfl
    · exact unescape_name _

/-- A written identifier means what it was written for, but for NUL. -/
theorem unescape_ident (s : List Char) : unescape (ident s) = s.map literal := by
  have hminus : IsName ['-'] := IsName.of_inName rfl
  have hplain (w : List Char) : unescape ('-' :: w) = '-' :: unescape w :=
    unescape_append hminus w
  rw [ident.eq_def]
  split
  · rfl
  · rw [hplain, hplain, unescape_name]
    rfl
  · rw [hplain, unescape_identTail]
    rfl
  · exact unescape_identTail s

end Written

/-! ## Names that are read -/

/-- An escape that has begun means something. -/
theorem unescapeFrom_digits_ne_nil (atEnd : List Char) (left value : Nat) (s : List Char) :
    unescapeFrom atEnd (.digits left value) s ≠ [] := by
  induction s generalizing left value with
  | nil => simp [unescapeFrom, Escape.finish]
  | cons c s ih =>
    by_cases hgoes : 0 < left ∧ (hexDigit? c).isSome
    · obtain ⟨left, rfl⟩ : ∃ n, left = n + 1 := ⟨left - 1, by omega⟩
      obtain ⟨d, hd⟩ := Option.isSome_iff_exists.1 hgoes.2
      have hclaims : (Escape.digits (left + 1) value).claims c =
          some (.digits left (16 * value + d)) := by simp [Escape.claims, hd]
      rw [unescapeFrom, hclaims]
      simp only [ne_eq, List.append_eq_nil_iff, not_and]
      exact fun _ => ih _ _
    · rw [unescapeFrom, Escape.meaning, if_neg hgoes]
      simp

/-- What an identifier means is not empty. -/
theorem unescape_spanName_ne_nil {c : Char} {r : List Char} (h : startsIdent (c :: r) = true) :
    unescape (spanName (c :: r)).1 ≠ [] := by
  have hstop := endsName_of_startsIdent h
  by_cases hslash : c = '\\'
  · subst hslash
    rcases r with _ | ⟨d, r⟩
    · decide
    · have hline : isNewline d = false := by simpa [startsIdent, startsLine] using h
      cases hhex : hexDigit? d with
      | some v =>
        have hspan : (spanName ('\\' :: d :: r)).1 =
            '\\' :: d :: (escapedSpan endsName (.digits 5 v) r).1 := by
          simp [spanName, escapedSpan, Escape.claims, hstop, hhex]
        rw [hspan, unescape]
        simp only [unescapeFrom, Escape.claims, Escape.meaning, hhex]
        simpa using unescapeFrom_digits_ne_nil _ _ _ _
      | none =>
        have hspan : ∃ t, (spanName ('\\' :: d :: r)).1 = '\\' :: d :: t := by
          simp [spanName, escapedSpan, Escape.claims, hstop, hhex]
        obtain ⟨t, ht⟩ := hspan
        rw [ht, unescape]
        simp [unescapeFrom, Escape.claims, Escape.meaning, hhex, hline]
  · have hspan : ∃ t, (spanName (c :: r)).1 = c :: t := by
      simp [spanName, escapedSpan, Escape.claims, hstop]
    obtain ⟨t, ht⟩ := hspan
    rw [ht, unescape]
    simp [unescapeFrom, Escape.claims, Escape.meaning, hslash]

/-- The name of a token that is an identifier or an identifier behind a number sign. -/
def Token.ident? : Token → Option String
  | .ident s | .idHash s => some s
  | _ => none

theorem scanIdentLike_ident? {c : Char} {r : List Char} (h : startsIdent (c :: r) = true)
    {s : String} (hs : (scanIdentLike (c :: r)).token.ident? = some s) : s ≠ "" := by
  rcases scanIdentLike_cases (c :: r) with hread | hread | ⟨u, w, hread⟩ | ⟨u, w, hread⟩ <;>
    rw [hread] at hs <;> cases hs
  simpa using unescape_spanName_ne_nil h

theorem scanPunctuation_ident? (c : Char) (r : List Char) :
    (scanPunctuation c r).token.ident? = none := by
  have hmatchers : ∀ t ∈ matchers, t.ident? = none := by decide
  rcases scanPunctuation_cases c r with ⟨t, ht, hread⟩ | hread <;> rw [hread]
  · exact hmatchers t ht
  · show (single c).ident? = none
    unfold single
    repeat' split
    all_goals rfl

/-- The name of an identifier that is read is not empty. -/
theorem Lexeme.IsRead.ident?_ne_empty {x : Lexeme} (hx : x.IsRead) {s : String}
    (hs : x.token.ident? = some s) : s ≠ "" := by
  obtain ⟨c, r, rfl⟩ := hx
  revert hs
  apply scan_elim (p := fun x => x.token.ident? = some s → s ≠ "")
  case space => intro _ h; cases h
  case comment => intro _ _ h; cases h
  case string =>
    intro _ h
    rcases scanString_cases c r with ⟨t, w, hread⟩ | ⟨t, w, hread⟩ <;> rw [hread] at h <;> cases h
  case hash =>
    intro _ h
    simp only [scanHash] at h
    split at h
    · rename_i hident
      cases h
      rcases r with _ | ⟨d, r⟩
      · cases hident
      · simpa using unescape_spanName_ne_nil hident
    · split at h <;> cases h
  case at_sign =>
    intro _ h
    rcases scanAt_cases r with ⟨t, w, hread⟩ | hread <;> rw [hread] at h <;> cases h
  case numeric =>
    intro _ h
    rcases scanNumeric_cases (c :: r) with ⟨n, w, hread⟩ | ⟨n, w, hread⟩ | ⟨n, u, w, hread⟩ <;>
      rw [hread] at h <;> cases h
  case commentClose => intro _ h; cases h
  case commentOpen => intro _ h; cases h
  case identLike =>
    intro hident h
    exact scanIdentLike_ident? hident h
  case punctuation =>
    intro h
    rw [scanPunctuation_ident?] at h
    cases h

/-! ## Strings -/

/-- Where a string in double quotes ends. -/
def endsString (c : Char) (_ : List Char) : Bool := c = '"' || isNewline c

namespace Written

theorem spans_stringChar (c : Char) : Spans endsString (stringChar c) := by
  rw [stringChar]
  split_ifs with hescape hnul hcontrol
  · rcases hescape with rfl | rfl <;> decide
  · decide
  · have hall : ∀ n < 128, Spans endsString (codeEscape (Char.ofNat n)) := by decide +kernel
    have hc := hall c.toNat (toNat_lt_of_isControl hcontrol)
    rwa [Char.ofNat_toNat] at hc
  · rw [not_or] at hescape
    refine Spans.singleton hescape.2 ?_
    have hline := isNewline_of_isControl_eq_false (by simpa using hcontrol)
    simp [endsString, hescape.1, hline]

/-- The text between the quotes of a written string. -/
theorem spans_flatMap_stringChar (s : List Char) : Spans endsString (s.flatMap stringChar) := by
  induction s with
  | nil => exact Spans.nil
  | cons c s ih => exact (spans_stringChar c).append ih fun _ _ => rfl

end Written

/-- A text that can stand in double quotes: no quote or line break in it ends the string and no
backslash at its end keeps the closing quote from doing so. -/
structure IsQuotable (v : List Char) : Prop where
  whole : (escapedSpan endsString .outside v).2 = []
  finished : Escape.outside.run v ≠ .opened

instance (v : List Char) : Decidable (IsQuotable v) :=
  decidable_of_iff ((escapedSpan endsString .outside v).2 = [] ∧ Escape.outside.run v ≠ .opened)
    ⟨fun h => ⟨h.1, h.2⟩, fun h => ⟨h.whole, h.finished⟩⟩

theorem Spans.isQuotable {v : List Char} (h : Spans endsString v) : IsQuotable v where
  whole := h.whole
  finished := by
    rw [h.closed]
    decide

theorem IsQuotable.append {v w : List Char} (hv : Spans endsString v) (hw : IsQuotable w) :
    IsQuotable (v ++ w) where
  whole := by rw [hv.escapedSpan_append fun _ _ => rfl, hw.whole]
  finished := by
    rw [Escape.run_append, hv.closed]
    exact hw.finished

/-- A text in double quotes that can stand there is one lexeme. -/
theorem lexemes_quoted {v : List Char} (hv : IsQuotable v) (r : List Char) :
    lexemes ('"' :: (v ++ '"' :: r)) =
      ⟨.string (String.ofList (unescapeString v)), '"' :: (v ++ ['"'])⟩ :: lexemes r := by
  have hquote : escapedSpan endsString (Escape.outside.run v) ('"' :: r) = ([], '"' :: r) := by
    have hclaims : (Escape.outside.run v).claims '"' = none := by
      cases hrun : Escape.outside.run v with
      | opened => exact absurd hrun hv.finished
      | outside => rfl
      | digits left value => cases left <;> rfl
      | afterReturn => rfl
    rw [escapedSpan, hclaims]
    rfl
  have hspan : escapedSpan endsString .outside (v ++ '"' :: r) = (v, '"' :: r) := by
    rw [escapedSpan_append_run (fun _ _ _ => rfl) hv.whole, hquote, List.append_nil]
  have hscan : scan '"' (v ++ '"' :: r) =
      ⟨.string (String.ofList (unescapeString v)), '"' :: (v ++ ['"'])⟩ := by
    have hstring : scan '"' (v ++ '"' :: r) = scanString '"' (v ++ '"' :: r) := rfl
    have hends : (fun (c : Char) (_ : List Char) => decide (c = '"') || isNewline c) = endsString :=
      rfl
    rw [hstring, scanString, hends, hspan]
    simp
  exact lexemes_eq_cons hscan (by simp)

/-- A written string is one lexeme. -/
theorem lexemes_string (s r : List Char) :
    lexemes (Written.string s ++ r) =
      ⟨.string (String.ofList (unescapeString (s.flatMap Written.stringChar))),
        Written.string s⟩ :: lexemes r := by
  have hquoted := lexemes_quoted (Written.spans_flatMap_stringChar s).isQuotable r
  have htext : Written.string s = '"' :: (s.flatMap Written.stringChar ++ ['"']) := by
    simp [Written.string]
  rw [htext, ← hquoted]
  simp

/-! ## Identifiers -/

/-- A text that is an identifier: it begins like one, all of it is read as a name, and there is
something behind a backslash at its end. Its last escape may be open, as in `\61`. -/
structure IsIdentifier (w : List Char) : Prop where
  starts : startsIdent w = true
  whole : (spanName w).2 = []
  finished : Escape.outside.run w ≠ .opened

instance (w : List Char) : Decidable (IsIdentifier w) :=
  decidable_of_iff
    (startsIdent w = true ∧ (spanName w).2 = [] ∧ Escape.outside.run w ≠ .opened)
    ⟨fun h => ⟨h.1, h.2.1, h.2.2⟩, fun h => ⟨h.starts, h.whole, h.finished⟩⟩

namespace IsIdentifier

variable {w : List Char}

theorem spanName_eq (h : IsIdentifier w) : spanName w = (w, []) := by
  have happend := spanName_append w
  rw [h.whole, List.append_nil] at happend
  exact Prod.ext happend h.whole

/-- An identifier on its own is one lexeme. -/
theorem lexemes_eq (h : IsIdentifier w) :
    lexemes w = [⟨.ident (String.ofList (unescape w)), w⟩] := by
  have hspan := h.spanName_eq
  obtain ⟨c, v, rfl⟩ : ∃ c v, w = c :: v := by
    cases w with
    | nil => cases h.starts
    | cons c v => exact ⟨c, v, rfl⟩
  have hclose : (c :: v).take 3 ≠ ['-', '-', '>'] := by
    intro hclose
    have hall : c :: v = ['-', '-', '>'] ++ (c :: v).drop 3 := by
      rw [← hclose, List.take_append_drop]
    have hwhole := h.whole
    rw [hall] at hwhole
    cases hwhole
  have hscan : scan c v = ⟨.ident (String.ofList (unescape (c :: v))), c :: v⟩ := by
    rw [scan_of_startsIdent h.starts hclose, scanIdentLike_ident, hspan]
    rw [hspan]
    rintro ⟨⟩
  exact lexemes_eq_cons hscan (List.append_nil _).symm

/-- The meaning of an identifier is not empty. -/
theorem unescape_ne_nil (h : IsIdentifier w) : unescape w ≠ [] := by
  have hspan := h.spanName_eq
  have hstarts := h.starts
  cases w with
  | nil => cases hstarts
  | cons c v =>
    have hne := unescape_spanName_ne_nil hstarts
    rwa [hspan] at hne

/-- What ends a string ends a name. -/
theorem endsName_of_endsString {c : Char} {r : List Char} (h : endsString c r = true) :
    endsName c r = true := by
  simp only [endsString, isNewline, Bool.or_eq_true, decide_eq_true_eq] at h
  rcases h with rfl | (rfl | rfl) | rfl <;> rfl

/-- An identifier can stand in double quotes. -/
theorem isQuotable (h : IsIdentifier w) : IsQuotable w where
  finished := h.finished
  whole := by
    have hmono {e : Escape} {s : List Char} (hs : (escapedSpan endsName e s).2 = []) :
        (escapedSpan endsString e s).2 = [] := by
      induction s generalizing e with
      | nil => rfl
      | cons c s ih =>
        rw [escapedSpan] at hs ⊢
        cases hclaims : e.claims c with
        | some e' =>
          rw [hclaims] at hs
          exact ih hs
        | none =>
          simp only [hclaims] at hs ⊢
          split at hs
          · cases hs
          · rename_i hgo
            rw [if_neg fun hends => hgo (endsName_of_endsString hends)]
            exact ih hs
    exact hmono h.whole

end IsIdentifier

end MailCss.Css
