import MailCss.Proofs.Selector.Attributes
import MailCss.Selector.Printer

/-!
# Formulas are read back

What is written for a formula `a n + b` is read as a formula again, up to the end of its brackets or
to the white space behind it. Its coefficient and its name are one token, and so is a name with a
minus and digits, so that a formula is one token, or two if `b` is written with a plus.

Main statement: `AnPlusB.spells_text`.
-/

namespace MailCss

open Css

/-! ## Numbers -/

namespace Css

/-- A sign, or nothing. -/
def IsSign (s : List Char) : Prop := s = [] ∨ s = ['+'] ∨ s = ['-']

/-- What ends an integer: nothing more, or a character that makes neither a longer number nor one
with a unit of it. -/
def EndsIntegers (r : List Char) : Prop :=
  startsIdent r = false ∧ ∀ c ∈ r.head?, c.isDigit = false ∧ c ∉ ['.', 'e', 'E', '%']

section Integers

variable {sign ds u r : List Char}

theorem spanSign_append_digits (hsign : IsSign sign) (hne : ds ≠ [])
    (hds : ∀ c ∈ ds, c.isDigit = true) (r : List Char) :
    spanSign (sign ++ (ds ++ r)) = (sign, ds ++ r) := by
  obtain ⟨d, ds, rfl⟩ := List.exists_cons_of_ne_nil hne
  have hd : d ≠ '+' ∧ d ≠ '-' := by
    have hdigit := hds d List.mem_cons_self
    refine ⟨?_, ?_⟩ <;> rintro rfl <;> cases hdigit
  rcases hsign with rfl | rfl | rfl
  · simp [spanSign, hd]
  · rfl
  · rfl

theorem spanDigits_append_of_head (hds : ∀ c ∈ ds, c.isDigit = true)
    (hr : ∀ c ∈ r.head?, c.isDigit = false) : spanDigits (ds ++ r) = (ds, r) := by
  have hall : ds.takeWhile Char.isDigit = ds := List.takeWhile_eq_self_iff.2 hds
  have hnone : ds.dropWhile Char.isDigit = [] := List.dropWhile_eq_nil_iff.2 hds
  rw [spanDigits, takeWhile_append_of_head hr, dropWhile_append_of_head hr, hall, hnone,
    List.nil_append]

/-- Where a number begins with a digit or a sign, it is read. -/
theorem scan_of_startsNumber {c : Char} (hc : c.isDigit = true ∨ c = '+' ∨ c = '-')
    (h : startsNumber (c :: r) = true) : scan c r = scanNumeric (c :: r) := by
  have hne {d : Char} (hd : d.isDigit = false) (hd' : d ≠ '+' ∧ d ≠ '-') : c ≠ d := by
    rintro rfl
    rcases hc with hc | rfl | rfl
    · rw [hd] at hc
      cases hc
    · exact hd'.1 rfl
    · exact hd'.2 rfl
  have hspace : isSpace c = false := by
    simp only [isSpace, Bool.or_eq_false_iff, decide_eq_false_iff_not]
    and_intros <;> exact hne (by decide) (by decide)
  rw [scan]
  simp only [hspace, h]
  simp [hne (d := '/') rfl (by decide), hne (d := '"') rfl (by decide),
    hne (d := '\'') rfl (by decide), hne (d := '#') rfl (by decide),
    hne (d := '@') rfl (by decide)]

theorem scan_integer (hsign : IsSign sign) (hne : ds ≠ []) (hds : ∀ c ∈ ds, c.isDigit = true)
    (hr : ∀ c ∈ r.head?, c.isDigit = false ∧ c ∉ ['.', 'e', 'E', '%']) :
    ∃ c t, sign ++ (ds ++ r) = c :: t ∧ scan c t =
      if startsIdent r then
        ⟨.dimension (numeralOf sign ds [] []) (String.ofList (unescape (spanName r).1)),
          sign ++ ds ++ (spanName r).1⟩
      else ⟨.number (numeralOf sign ds [] []), sign ++ ds⟩ := by
  have hspan := spanSign_append_digits hsign hne hds r
  have hdigits := spanDigits_append_of_head hds fun c hc => (hr c hc).1
  have hfraction : spanFraction r = ([], r) := by
    rcases r with _ | ⟨c, r⟩
    · rfl
    · have hc := (hr c rfl).2
      simp only [List.mem_cons, not_or] at hc
      simp [spanFraction, hc]
  have hexponent : spanExponent r = ([], r) := by
    rcases r with _ | ⟨c, r⟩
    · rfl
    · have hc := (hr c rfl).2
      simp only [List.mem_cons, not_or] at hc
      simp [spanExponent, hc]
  have hpercent : r.head? ≠ some '%' := by
    intro hhead
    simpa using (hr '%' hhead).2
  have hstarts : startsNumber (sign ++ (ds ++ r)) = true := by
    simp [startsNumber, hspan, hdigits, hne]
  have hnumeric : scanNumeric (sign ++ (ds ++ r)) =
      if startsIdent r then
        ⟨.dimension (numeralOf sign ds [] []) (String.ofList (unescape (spanName r).1)),
          sign ++ ds ++ (spanName r).1⟩
      else ⟨.number (numeralOf sign ds [] []), sign ++ ds⟩ := by
    simp [scanNumeric, hspan, hdigits, hfraction, hexponent, hpercent]
  obtain ⟨c, t, heq⟩ : ∃ c t, sign ++ (ds ++ r) = c :: t :=
    List.exists_cons_of_ne_nil (by simp [hne])
  have hc : c.isDigit = true ∨ c = '+' ∨ c = '-' := by
    obtain ⟨d, ds, rfl⟩ := List.exists_cons_of_ne_nil hne
    rcases hsign with rfl | rfl | rfl <;> cases heq
    · exact .inl (hds _ List.mem_cons_self)
    · exact .inr (.inl rfl)
    · exact .inr (.inr rfl)
  refine ⟨c, t, heq, ?_⟩
  rw [heq] at hstarts hnumeric
  rw [scan_of_startsNumber hc hstarts, hnumeric]

/-- An integer. -/
theorem spells_integer (hsign : IsSign sign) (hne : ds ≠ []) (hds : ∀ c ∈ ds, c.isDigit = true) :
    Spells EndsIntegers (sign ++ ds)
      [.leaf ⟨.number (numeralOf sign ds [] []), sign ++ ds⟩] := by
  refine spells_leaf rfl rfl fun r hr => ?_
  obtain ⟨c, t, heq, hscan⟩ := scan_integer hsign hne hds hr.2
  rw [hr.1, if_neg Bool.false_ne_true] at hscan
  rw [List.append_assoc, heq]
  exact lexemes_eq_cons hscan (by rw [← heq, List.append_assoc])

/-- An integer with a unit. -/
theorem spells_dimension (hsign : IsSign sign) (hne : ds ≠ []) (hds : ∀ c ∈ ds, c.isDigit = true)
    (hu : IsIdent u) (hhead : ∀ c ∈ u.head?, c ∉ ['e', 'E']) :
    Spells EndsNames (sign ++ (ds ++ u))
      [.leaf ⟨.dimension (numeralOf sign ds [] []) (String.ofList (unescape u)),
        sign ++ ds ++ u⟩] := by
  refine spells_leaf rfl rfl fun r hr => ?_
  obtain ⟨d, v, rfl⟩ := List.exists_cons_of_ne_nil hu.ne_nil
  have hfront := startsName_of_startsIdent hu.starts
  obtain ⟨c, t, heq, hscan⟩ := scan_integer (r := d :: v ++ r) hsign hne hds <| by
    rintro c ⟨⟩
    have hpoint : d ≠ '.' := ne_of_startsFront hfront rfl (by decide)
    have hpercent : d ≠ '%' := ne_of_startsFront hfront rfl (by decide)
    have hexponent := hhead d rfl
    simp only [List.mem_cons, List.not_mem_nil, or_false, not_or] at hexponent
    simp [isDigit_of_startsFront hfront, hpoint, hpercent, hexponent]
  rw [hu.name.startsIdent_append hu.starts r, if_pos rfl, hu.name.spanName_append hr] at hscan
  rw [List.append_assoc, List.append_assoc, heq]
  exact lexemes_eq_cons hscan (by rw [← heq]; simp)

/-- The digits of an integer, with a minus in front where it is negative. -/
theorem exists_digits (i : Int) : ∃ ds, ds ≠ [] ∧ (∀ c ∈ ds, c.isDigit = true) ∧
    (toString i).toList = (if 0 ≤ i then [] else ['-']) ++ ds := by
  have hdigits (n : Nat) : ∀ c ∈ Nat.toDigits 10 n, c.isDigit = true := fun c hc =>
    Nat.isDigit_of_mem_toDigits (by decide) (by decide) hc
  rw [Int.toString_eq_repr, Int.repr_eq_if]
  split
  · exact ⟨Nat.toDigits 10 i.toNat, Nat.toDigits_ne_nil, hdigits _, Nat.toList_repr⟩
  · exact ⟨Nat.toDigits 10 (-i).toNat, Nat.toDigits_ne_nil, hdigits _, by simp [Nat.toList_repr]⟩

theorem isSign_ite (i : Int) : IsSign (if 0 ≤ i then [] else ['-']) := by
  split
  · exact .inl rfl
  · exact .inr (.inr rfl)

end Integers

end Css

namespace AnPlusB

/-- What a formula may stand in front of: nothing more, white space or a closing bracket. -/
def EndsText (r : List Char) : Prop := ∀ c ∈ r.head?, c = ' ' ∨ c = ')'

/-- Items in front of which a formula ends: nothing but white space, or a name behind it. -/
def EndsItems (items : List Item) : Prop :=
  ∀ t ∈ (dropSkipped items).head?, ∃ s, t.token = .ident s

theorem EndsText.endsIdents {r : List Char} (h : EndsText r) : EndsIdents r := by
  rcases r with _ | ⟨c, r⟩
  · refine ⟨?_, ?_⟩ <;> rintro c ⟨⟩
  · rcases h c rfl with rfl | rfl <;> exact endsIdents_cons (by decide) (by decide) r

theorem EndsText.endsIntegers {r : List Char} (h : EndsText r) : EndsIntegers r := by
  rcases r with _ | ⟨c, r⟩
  · refine ⟨rfl, ?_⟩
    rintro c ⟨⟩
  · rcases h c rfl with rfl | rfl <;> refine ⟨rfl, ?_⟩ <;> rintro c ⟨⟩ <;> decide

theorem readOffset_of_endsItems {rest : List Item} (h : EndsItems rest) (a : Int) :
    readOffset a rest = .ok (⟨a, 0⟩, rest) := by
  rw [readOffset]
  split
  · rfl
  · rename_i t r ht
    obtain ⟨s, hs⟩ := h t (by rw [ht]; rfl)
    rw [hs]

/-- What is written behind the coefficient: `n` with what is attached to it, and a number with a
plus, if there is one. -/
theorem exists_unit (b : Int) : ∃ u v ts, (if b = 0 then [] else signedText b) = u ++ v ∧
    (∀ c ∈ u, c = '-' ∨ c.isDigit = true) ∧ Spells EndsText v ts ∧
    (∀ r, EndsText r → EndsIdents (v ++ r)) ∧
    ∀ a name cause here rest, name.toList = 'n' :: u → EndsItems rest →
      ∃ f, readName a name cause here (Item.ofTrees ts ++ rest) = .ok (f, rest) := by
  -- A number without unit is read behind `n`, and digits behind a minus belong to the name.
  have hplain {name : String} (hname : name.toList = ['n']) (a : Int) (cause : Cause) (here : Nat)
      (r : List Item) : readName a name cause here r = readOffset a r := by
    obtain rfl : name = "n" := String.toList_inj.1 hname
    rfl
  obtain ⟨ds, hne, hds, htext⟩ := exists_digits b
  rcases Int.lt_trichotomy b 0 with hb | rfl | hb
  · refine ⟨'-' :: ds, [], [], ?_, ?_, .nil, fun r hr => hr.endsIdents, ?_⟩
    · rw [if_neg (by omega), signedText, if_neg (by omega), htext, if_neg (by omega),
        List.append_nil]
      rfl
    · intro c hc
      rcases List.mem_cons.1 hc with rfl | hc
      · exact .inl rfl
      · exact .inr (hds c hc)
    · intro a name cause here rest hname _
      have hlower : (Names.lower name).toList = 'n' :: '-' :: ds.map Char.toLower := by
        simp [Names.lower, hname]
      have hall : ds.all Char.isDigit = true := List.all_eq_true.2 hds
      rw [readName]
      split
      · rename_i h
        rw [h] at hlower
        cases hlower
      · rename_i h
        rw [h] at hlower
        simp [hne] at hlower
      · refine ⟨⟨a, max Decimal.Numeral.leastInt (-(Decimal.natOfDigits ds : Int))⟩, ?_⟩
        simp [dashDigits?, hname, hne, hall, Item.ofTrees]
  · exact ⟨[], [], [], rfl, by simp, .nil, fun r hr => hr.endsIdents,
      fun a name cause here rest hname hrest =>
        ⟨_, (hplain hname a cause here rest).trans (readOffset_of_endsItems hrest a)⟩⟩
  · refine ⟨[], '+' :: ds, _, ?_, by simp,
      (spells_integer (.inr (.inl rfl)) hne hds).mono fun r hr => hr.endsIntegers,
      fun r _ => endsIdents_cons (by decide) (by decide) _, ?_⟩
    · rw [if_neg (by omega), signedText, if_pos (by omega), htext, if_pos (by omega)]
      rfl
    · intro a name cause here rest hname _
      rw [hplain hname]
      exact ⟨_, rfl⟩

/-- Items that are read as a formula in front of those that end it. -/
def ReadsFormula (items : List Item) : Prop :=
  ∀ rest, EndsItems rest → ∃ f, AnPlusB.read (items ++ rest) = .ok (f, rest)

/-- A formula that begins with a name. -/
theorem read_ident {t : Item} {name : String} {c : Char} {w : List Char}
    (ht : t.token = .ident name) (hname : name.toList = c :: w) (hc : c = 'n' ∨ c = '-')
    (r : List Item) :
    AnPlusB.read (t :: r) =
      match name.toList with
      | '-' :: rest =>
        readName (-1) (String.ofList rest) (.unexpectedToken t.token) (leftAfter t r) r
      | _ => readName 1 name (.unexpectedToken t.token) (leftAfter t r) r := by
  have hskipped : dropSkipped (t :: r) = t :: r := by
    simp [dropSkipped, Item.isSkipped, ht, Token.isSkipped]
  have hlower : (Names.lower name).toList = c :: w.map Char.toLower := by
    rcases hc with rfl | rfl <;> simp [Names.lower, hname]
  rw [AnPlusB.read, hskipped]
  simp only [ht]
  split
  · rename_i h
    rw [h] at hlower
    rcases hc with rfl | rfl <;> cases hlower
  · rename_i h
    rw [h] at hlower
    rcases hc with rfl | rfl <;> cases hlower
  · rfl

theorem isIdent_unit {u : List Char} (hu : ∀ c ∈ u, c = '-' ∨ c.isDigit = true) :
    IsIdent ('n' :: u) ∧ IsIdent ('-' :: 'n' :: u) ∧ unescape ('n' :: u) = 'n' :: u ∧
      unescape ('-' :: 'n' :: u) = '-' :: 'n' :: u := by
  have hname : IsName u := by
    induction u with
    | nil => exact .nil
    | cons c u ih =>
      have hc : inName c = true := by
        rcases hu c List.mem_cons_self with rfl | hc
        · rfl
        · simp [inName, hc]
      exact (IsName.of_inName hc).append (ih fun d hd => hu d (List.mem_cons_of_mem _ hd))
  have hplain : ∀ c ∈ u, c ≠ '\\' ∧ c ≠ '\x00' := by
    intro c hc
    refine ⟨?_, ?_⟩ <;> rintro rfl <;> rcases hu _ hc with h | h <;> cases h
  have hn : IsName ['n'] := IsName.of_inName rfl
  have hminus : IsName ['-'] := IsName.of_inName rfl
  refine ⟨⟨hn.append hname, rfl⟩, ⟨hminus.append (hn.append hname), rfl⟩, unescape_plain ?_,
    unescape_plain ?_⟩ <;> simpa using hplain

/-- What is written for a formula is read as one. -/
theorem spells_text (f : AnPlusB) :
    ∃ ts, Spells EndsText f.text ts ∧ ReadsFormula (Item.ofTrees ts) := by
  obtain ⟨ds, hne, hds, hb⟩ := exists_digits f.b
  rw [text]
  split
  · -- Without `n`.
    rw [hb]
    exact ⟨_, (spells_integer (isSign_ite f.b) hne hds).mono fun r hr => hr.endsIntegers,
      fun rest _ => ⟨_, rfl⟩⟩
  split
  · have hodd : IsIdent "odd".toList := by decide
    exact ⟨_, (spells_ident hodd).mono fun r hr => hr.endsIdents, fun rest _ => ⟨_, rfl⟩⟩
  -- With `n`, which is a name of its own or a unit.
  obtain ⟨u, v, ts, htext, hu, hspells, hends, hread⟩ := exists_unit f.b
  obtain ⟨hunit, hminus, hplain, hplain'⟩ := isIdent_unit hu
  have hall {w : List Char} {t : TokenTree} (hw : Spells EndsIdents (w ++ 'n' :: u) [t])
      (h : ∀ r, EndsItems r →
        ∃ p, AnPlusB.read (Item.ofTree t :: (Item.ofTrees ts ++ r)) = .ok (p, r)) :
      ∃ ts, Spells EndsText (w ++ 'n' :: if f.b = 0 then [] else signedText f.b) ts ∧
        ReadsFormula (Item.ofTrees ts) := by
    refine ⟨[t] ++ ts, ?_, fun rest hrest => ?_⟩
    · have happend := hw.append hspells fun r hr => hends r hr
      rw [htext]
      simpa using happend
    · rw [Item.ofTrees_append, List.append_assoc]
      exact h rest hrest
  have hident {c : Char} {w : List Char} (hc : c = 'n' ∨ c = '-') (hw : unescape (c :: w) = c :: w)
      (r : List Item) :=
    have htoken : (Item.ofTree (identLeaf (c :: w))).token = .ident (String.ofList (c :: w)) := by
      rw [Item.token_ofTree, token_identLeaf, hw]
    read_ident htoken String.toList_ofList hc r
  split
  · refine hall (w := []) (t := identLeaf ('n' :: u)) (spells_ident hunit) fun r hr => ?_
    rw [hident (.inl rfl) hplain, String.toList_ofList]
    exact hread 1 _ _ _ r String.toList_ofList hr
  split
  · refine hall (w := ['-']) (t := identLeaf ('-' :: 'n' :: u)) (spells_ident hminus) fun r hr => ?_
    rw [hident (.inr rfl) hplain', String.toList_ofList]
    exact hread (-1) _ _ _ r String.toList_ofList hr
  · obtain ⟨es, hne, hes, ha⟩ := exists_digits f.a
    have hdimension := spells_dimension (isSign_ite f.a) hne hes hunit (by rintro c ⟨⟩; decide)
    rw [← List.append_assoc, ← ha] at hdimension
    refine hall (hdimension.mono fun r hr => hr.1) fun r hr => ?_
    exact hread _ _ _ _ r (by rw [hplain, String.toList_ofList]) hr

end AnPlusB

end MailCss
