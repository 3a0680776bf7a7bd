import MailCss.Proofs.Selector.Chains

/-!
# A type selector behind other components

Where a type selector is put behind components of a compound, its name is written right behind
their text. If nothing but the nesting selector is there, or the text ends in a name or in the bar
of a namespace, this is read as a compound: the name goes on. Otherwise the name breaks off the
selector. Which of the two it is can be told from the text in front (`admitsType`).

Main statement: `Chain.IsFront.joins`.
-/

namespace MailCss

open Css

/-- Whether the name of a type selector can be read right behind a text: behind nothing, behind the
nesting selector, behind a name, which it goes on with, and behind the bar of a namespace. -/
def admitsType (w : List Char) : Bool :=
  w = [] || w = ['&'] || endsInName (TokenTree.ofText w)

/-- The name `z` behind the text `w` is read if `w` admits it, and breaks the selector otherwise. -/
structure Joins (w z : List Char) : Prop where
  admitted : admitsType w = true → ∀ x, Chain.WrittenTail {} x →
    WrittenSelector {} (w ++ (z ++ x))
  refused : admitsType w = false → ∃ F, SpelledAs F (ReadsCompound true {} · {}) w ∧
    ∀ r, F (z ++ r)

theorem isIdent_of_mem_joints {z : List Char} (hz : z ∈ joints) : IsIdent z := by
  have hall : ∀ z ∈ joints, IsIdent z := by decide
  exact hall z hz

section Tails

open Chain

variable {x : List Char}

/-- What follows a type selector ends its name. -/
theorem Chain.WrittenTail.endsIdents (hx : WrittenTail {} x) : EndsIdents x := by
  have hrow {w : List Char} {g : Flags} (hw : WrittenRow {} w g) {r : List Char}
      (hr : EndsIdents r) : EndsIdents (w ++ r) := by
    obtain ⟨ts, hts⟩ := hw
    exact hts.endsIdents_append fun _ => hr
  cases hx with
  | simples hw =>
    have hends := hrow hw endsIdents_nil
    rwa [List.append_nil] at hends
  | @combinator w v k _ hw hk _ =>
    refine hrow hw ?_
    have hspace : ∃ t, k.text ++ v = ' ' :: t := by
      cases k <;> first | exact ⟨_, rfl⟩ | cases hk
    obtain ⟨t, ht⟩ := hspace
    rw [ht]
    exact endsIdents_cons (by decide) (by decide) t

/-- A name right behind a compound breaks the selector. -/
theorem SpelledAs.brokenSelector {F : List Char → Prop} {w z : List Char}
    (hw : SpelledAs F (ReadsCompound true {} · {}) w) (hz : IsIdent z) (hF : ∀ r, F (z ++ r))
    (hx : WrittenTail {} x) : BrokenSelector {} (w ++ (z ++ x)) := by
  obtain ⟨t, ts, hspells, hbegins, hcomma, hread⟩ := hw
  -- The trees behind the compound are those of a selector that begins with the name.
  have htype : WrittenType z := writtenType_of_isIdent (q := none) rfl hz
  obtain ⟨u, us, hus, -, hcomma', -⟩ :=
    hx.writtenSelector_head (.inl rfl) (.inr ⟨rfl, htype⟩) (by
      rintro - rfl
      cases hz.starts)
  rw [rowText_nil, List.nil_append] at hus
  have hhead : u :: us = identLeaf z :: TokenTree.ofText x := by
    rw [← hus.ofText_eq endsCompounds_nil, (spells_ident hz).ofText_append hx.endsIdents]
    rfl
  obtain ⟨rfl, rfl⟩ := List.cons.inj hhead
  refine ⟨t, ts ++ identLeaf z :: TokenTree.ofText x, ?_, hbegins, ?_, ?_⟩
  · exact hspells.append hus fun r _ => by
      rw [List.append_assoc]
      exact hF _
  · intro v hv
    rw [← List.cons_append, List.mem_append] at hv
    exact hv.elim (hcomma v) (hcomma' v)
  · rw [← List.cons_append, Item.ofTrees_append, Item.ofTrees]
    exact hread.breaksSelector (s := String.ofList (unescape z)) (by simp)

end Tails

/-! ## Heads of compounds in front -/

/-- What is written for a namespace ends in its bar. -/
theorem spells_namespace {q : Namespace} (hq : q.isNamed = true) :
    ∃ us, Spells (BeginsWithout '=') q.text (us ++ [.leaf ⟨.delim '|', ['|']⟩]) := by
  cases q with
  | any => exact ⟨[_], spells_star.append spells_bar fun r _ => by simp [BeginsWithout]⟩
  | empty => exact ⟨[], spells_bar⟩
  | named label =>
    have hlabel : IsIdent (identText label) :=
      isIdent_identText (by simpa [Namespace.isNamed] using hq)
    exact ⟨[_], (spells_ident hlabel).append spells_bar fun r _ =>
      endsIdents_cons (by decide) (by decide) r⟩

theorem endsInName_concat (ts : List TokenTree) (t : TokenTree) :
    endsInName (ts ++ [t]) = endsInName [t] := endsInName_append (List.cons_ne_nil t [])

namespace Chain

/-- What is written behind the nesting selector, or behind nothing, ends as it does. -/
theorem endsInName_nesting {F : List Char → Prop} {n : Chain} {w : List Char} {ts : List TokenTree}
    {t : TokenTree} (hn : IsNesting n) (hw : Spells F w (ts ++ [t])) (hF : F []) :
    endsInName (TokenTree.ofText (rowText n ++ w)) = endsInName [t] := by
  rcases hn with rfl | rfl
  · rw [rowText_nil, List.nil_append, hw.ofText_eq hF, endsInName_concat]
  · have hspells : Spells F (['&'] ++ w) ([.leaf ⟨.delim '&', ['&']⟩] ++ (ts ++ [t])) :=
      spells_ampersand.append hw fun _ _ => trivial
    have htext : rowText [.nesting] = ['&'] := rfl
    rw [htext, hspells.ofText_eq hF, ← List.append_assoc, endsInName_concat]

/-- The last tree of a type selector decides whether its text ends in a name. -/
theorem endsInName_type {F : List Char → Prop} {n : Chain} {q : Option Namespace} {w : List Char}
    {t : TokenTree} (hn : IsNesting n) (hq : q.all Namespace.isNamed = true) (hw : Spells F w [t])
    (hbegins : ∀ r, BeginsWithout '=' (w ++ r)) (hF : F []) :
    endsInName (TokenTree.ofText (rowText n ++ (q.elim [] Namespace.text ++ w))) =
      endsInName [t] := by
  cases q with
  | none =>
    have hw' : Spells F w ([] ++ [t]) := hw
    exact endsInName_nesting hn hw' hF
  | some q =>
    obtain ⟨us, hus⟩ := spells_namespace (q := q) (by simpa using hq)
    exact endsInName_nesting hn (hus.append hw fun r _ => hbegins r) hF

section Heads

variable {n : Chain} {q : Option Namespace} {z : List Char}

theorem writtenType_joint (hz : z ∈ joints) : WrittenType z :=
  writtenType_of_isIdent (q := none) rfl (isIdent_of_mem_joints hz)

/-- Behind a type selector, what is written begins with something else. -/
theorem writtenType_ne_nil {v : List Char} (hv : WrittenType v) : v ≠ [] := by
  rintro rfl
  obtain ⟨t, ts, hspells, -⟩ := hv
  have hnil : TokenTree.ofText [] = t :: ts := hspells.ofText_eq endsCompounds_nil
  cases hnil

/-- A name behind the nesting selector or nothing. -/
theorem joins_nesting (hn : IsNesting n) (hz : z ∈ joints) : Joins (rowText n) z where
  admitted _ x hx := by
    rw [← List.append_assoc]
    refine hx.writtenSelector_head hn (.inr ⟨rfl, writtenType_joint hz⟩) ?_
    rintro - rfl
    exact absurd rfl (writtenType_ne_nil (writtenType_joint hz))
  refused h := by
    rcases hn with rfl | rfl
    · cases h
    · cases h

/-- A name behind a namespace. -/
theorem joins_namespace (hn : IsNesting n) {q : Namespace} (hq : q.isNamed = true)
    (hz : z ∈ joints) : Joins (rowText n ++ q.text) z where
  admitted _ x hx := by
    have htype : WrittenType (q.text ++ z) :=
      writtenType_of_isIdent (q := some q) (by simpa using hq) (isIdent_of_mem_joints hz)
    have hselector := hx.writtenSelector_head hn (.inr ⟨rfl, htype⟩) fun _ hnil =>
      absurd hnil (writtenType_ne_nil htype)
    simpa only [List.append_assoc] using hselector
  refused h := by
    obtain ⟨us, hus⟩ := spells_namespace hq
    have hends := endsInName_nesting hn hus (by simp [BeginsWithout])
    rw [admitsType, hends, Bool.or_eq_false_iff] at h
    cases h.2

/-- A name that goes on with another. -/
theorem joins_name (hn : IsNesting n) (hq : q.all Namespace.isNamed = true) {name : String}
    (hname : name ≠ "") (hz : z ∈ joints) :
    Joins (rowText n ++ (q.elim [] Namespace.text ++ identText name)) z where
  admitted _ x hx := by
    have htype : WrittenType (q.elim [] Namespace.text ++ (identText name ++ z)) :=
      writtenType_of_isIdent hq ((isIdent_identText hname).append (isName_of_mem_joints hz).1)
    have hselector := hx.writtenSelector_head hn (.inr ⟨rfl, htype⟩) fun _ hnil =>
      absurd hnil (writtenType_ne_nil htype)
    simpa only [List.append_assoc] using hselector
  refused h := by
    have hident := isIdent_identText hname
    have hends := endsInName_type hn hq (spells_ident hident) (beginsWithout_equals_append hident)
      endsIdents_nil
    rw [admitsType, hends, Bool.or_eq_false_iff] at h
    cases h.2

/-- A name behind a star. -/
theorem joins_star (hn : IsNesting n) (hq : q.all Namespace.isNamed = true) (hz : z ∈ joints) :
    Joins (rowText n ++ (q.elim [] Namespace.text ++ ['*'])) z where
  admitted h := by
    have hends := endsInName_type hn hq spells_star (fun r => by simp [BeginsWithout])
      (by simp [BeginsWithout])
    have hlast : (rowText n ++ (q.elim [] Namespace.text ++ ['*'])).getLast? = some '*' := by simp
    simp only [admitsType, hends, Bool.or_eq_true, decide_eq_true_eq] at h
    rcases h with (h | h) | h
    · rw [h] at hlast
      cases hlast
    · rw [h] at hlast
      cases hlast
    · cases h
  refused _ := by
    refine ⟨BeginsWithout '=', ?_, beginsWithout_equals_append (isIdent_of_mem_joints hz)⟩
    have hnil : SpelledSimples (BeginsWithout '=') {} [] [] {} := .nil
    rcases hn with rfl | rfl
    · have hread : SpelledAs (BeginsWithout '=') (ReadsCompound true {} · {}) _ :=
        spelledAs_type_simples rfl (spelledAs_type_star hq) hnil fun _ hr => hr
      rwa [List.append_nil] at hread
    · have hread : SpelledAs (BeginsWithout '=') (ReadsCompound true {} · {}) _ :=
        spelledAs_nesting_type_simples rfl (spelledAs_type_star hq) hnil fun _ hr => hr
      rwa [List.append_nil] at hread

end Heads

/-! ## Simple selectors in front -/

/-- The trees of simple selectors are the last ones of a text that ends with them. -/
theorem endsInName_simples {F : List Char → Prop} {n : Chain} {v w : List Char}
    {ts : List TokenTree} {f g : Flags} (hn : IsNesting n) (hv : v = [] ∨ WrittenType v)
    (hw : SpelledSimples F f w ts g) (hne : w ≠ []) (hF : F []) :
    endsInName (TokenTree.ofText (rowText n ++ v ++ w)) = endsInName ts := by
  have hspells : ∃ us, Spells F (v ++ w) (us ++ ts) := by
    rcases hv with rfl | ⟨t, us, hus, -⟩
    · exact ⟨[], hw.spells⟩
    · exact ⟨t :: us, hus.append hw.spells fun r _ =>
        hw.endsCompounds_append fun hnil => absurd hnil hne⟩
  obtain ⟨us, hus⟩ := hspells
  obtain ⟨vs, t, rfl⟩ := (List.eq_nil_or_concat ts).resolve_left (hw.ne_nil hne)
  rw [List.concat_eq_append, ← List.append_assoc] at hus
  rw [List.append_assoc, endsInName_nesting hn hus hF, List.concat_eq_append, endsInName_concat]

/-- A name behind simple selectors. -/
theorem joins_simples {n : Chain} {v w z : List Char} (hn : IsNesting n)
    (hv : IsTypeText {} v) (hw : WrittenSimples {} w {}) (hz : z ∈ joints) :
    Joins (rowText n ++ v ++ w) z := by
  have hne := hw.ne_nil
  have hstarts := starts_of_writtenSimples hw
  have htype := hv.imp_right And.right
  cases hw with
  | closed hspelled _ hends =>
    have hends' := endsInName_simples hn htype hspelled hne trivial
    -- The text does not end in a name, and then only `&` is read with a name behind it.
    refine ⟨fun h x hx => ?_, fun h => ⟨Anything, ?_, fun _ => trivial⟩⟩
    · simp only [admitsType, hends', hends, Bool.or_eq_true, decide_eq_true_eq] at h
      rcases h with (h | h) | h
      · simp [hne] at h
      · rw [h]
        exact (joins_nesting (.inr rfl) hz).admitted rfl x hx
      · cases h
    · simp only [admitsType, Bool.or_eq_false_iff, decide_eq_false_iff_not] at h
      exact spelledAs_head hn hv hspelled trivial
        (fun r _ => hspelled.endsCompounds_append fun hnil => absurd hnil hne) (fun _ _ => hne)
        fun _ => ⟨hne, h.1.2⟩
  | named hspelled hends _ hjoint =>
    -- The last name goes on with `z`, and is still the name of a simple selector.
    refine ⟨fun _ x hx => ?_, fun h => ?_⟩
    · obtain ⟨us, hus⟩ := hjoint rfl rfl z hz
      have hselector := (hx.row_append ⟨us, hus⟩).writtenSelector_head hn hv fun _ _ => by
        rw [List.append_assoc]
        exact hstarts.append _
      simpa only [List.append_assoc] using hselector
    · have hends' := endsInName_simples hn htype hspelled hne endsIdents_nil
      rw [admitsType, hends', hends, Bool.or_eq_false_iff] at h
      cases h.2

/-! ## Compounds in front -/

/-- The components of a compound in front of one of its type selectors or simple selectors. -/
inductive IsFront : Chain → Prop
  | qualifier {n} {q : Option Namespace} : IsNesting n → q.all Namespace.isNamed = true →
      IsFront (n ++ q.toList.map Component.qualifier)
  | simples {n y s} : IsNesting n → IsTypeSelector y → IsRow {} s {} → IsFront (n ++ y ++ s)

/-- A name behind the head of a compound, of which the universal selector is left out. -/
theorem joins_head {n y : Chain} (hn : IsNesting n) (hy : IsTypeSelector y) {z : List Char}
    (hz : z ∈ joints) (leading : Bool) : Joins (headText leading false (n ++ y)) z := by
  have hnone : ∀ x ∈ n, x.isUniversal = false := by
    rcases hn with rfl | rfl <;> simp [Component.isUniversal]
  cases hy with
  | none =>
    rw [List.append_nil, headText_of_not_universal hnone]
    exact joins_nesting hn hz
  | @tag q name hq hname =>
    have huniversal : ∀ x ∈ n ++ (q.toList.map Component.qualifier ++ [.tag name]),
        x.isUniversal = false := by
      rcases hn with rfl | rfl <;> cases q <;> simp [Component.isUniversal]
    have htext : rowText (n ++ (q.toList.map Component.qualifier ++ [.tag name])) =
        rowText n ++ (q.elim [] Namespace.text ++ identText name) := by
      cases q <;> simp
    rw [headText_of_not_universal huniversal, htext]
    exact joins_name hn hq hname hz
  | @universal q hq =>
    cases q with
    | none =>
      have htext : headText leading false (n ++ [.universal]) = rowText n := by
        rcases hn with rfl | rfl <;> cases leading <;> rfl
      exact htext ▸ joins_nesting hn hz
    | some q =>
      have hq' : q.isNamed = true := by simpa using hq
      -- The star is left out, and its namespace is not, behind a nesting selector that is not first.
      have htext : headText leading false (n ++ [.qualifier q, .universal]) =
            rowText n ++ ((some q).elim [] Namespace.text ++ ['*']) ∨
          headText leading false (n ++ [.qualifier q, .universal]) = rowText n ++ q.text := by
        have hkept : rowText (n ++ [.qualifier q, .universal]) = rowText n ++ (q.text ++ ['*']) := by
          simp
        have hleft : rowText (n ++ [.qualifier q]) = rowText n ++ q.text := by simp
        rcases hn with rfl | rfl
        · exact .inl (Eq.trans (by cases leading <;> rfl) hkept)
        · cases leading with
          | true => exact .inl (Eq.trans rfl hkept)
          | false => exact .inr (Eq.trans rfl hleft)
      have hlist : (some q).toList.map Component.qualifier ++ [.universal] =
          [.qualifier q, .universal] := rfl
      rw [hlist]
      rcases htext with htext | htext <;> rw [htext]
      · exact joins_star hn hq hz
      · exact joins_namespace hn hq' hz

/-- A name behind the front of a compound. -/
theorem IsFront.joins {c : Chain} (hc : IsFront c) (hlegible : c.IsLegible {})
    {z : List Char} (hz : z ∈ joints) (leading : Bool) {x : Component} {r : Chain}
    (hstrands : leading = false → strands (c ++ x :: r) = false) :
    Joins (headText leading false c) z := by
  cases hc with
  | @qualifier n q hn hq =>
    have huniversal : ∀ x ∈ n ++ q.toList.map Component.qualifier, x.isUniversal = false := by
      rcases hn with rfl | rfl <;> cases q <;> simp [Component.isUniversal]
    rw [headText_of_not_universal huniversal]
    cases q with
    | none =>
      rw [Option.toList_none, List.map_nil, List.append_nil]
      exact joins_nesting hn hz
    | some q =>
      have htext : rowText (n ++ (some q).toList.map Component.qualifier) = rowText n ++ q.text := by
        simp
      rw [htext]
      exact joins_namespace hn (by simpa using hq) hz
  | @simples n y s hn hy hs =>
    rw [IsLegible, along_head hn hy] at hlegible
    rcases hs.written hlegible with ⟨rfl, -⟩ | hwritten
    · rw [List.append_nil]
      exact joins_head hn hy hz leading
    · have hne : s ≠ [] := by
        rintro rfl
        exact hwritten.ne_nil rfl
      have htype : (s ++ x :: r).head?.any Component.isType = false := by
        have htype' := hs.head?_isType (r := []) rfl
        obtain ⟨c, s, rfl⟩ := List.exists_cons_of_ne_nil hne
        exact htype'
      obtain ⟨v, hv, hcases⟩ := headText_cases hn hy leading false fun hl =>
        strands_of_append hn hy htype (by
          rw [← List.append_assoc]
          exact hstrands hl)
      rw [headText_append (hs.isPlain rfl).1, Bool.false_and, hv]
      exact joins_simples hn (isTypeText_of_cases (.inr rfl) hcases) hwritten hz

end Chain

end MailCss
