import MailCss.Proofs.Selector.Joints
import MailCss.Proofs.Selector.Substitution

/-!
# A replacement in the place of the anchor

A chain that was read is cut at its anchor: into compounds in front, each with a combinator behind
it, the front of the anchor's compound, the anchor and what follows it. A replacement begins with a
type selector, so that with it in the anchor's place the chain is read or broken as the front of the
anchor's compound admits a type selector or not.

Main statement: `Chain.IsRead.retarget`.
-/

namespace MailCss

open Css

namespace Chain

/-! ## What follows a type selector -/

/-- The components behind a type selector: simple selectors up to the end, or up to a combinator
and a selector. -/
inductive IsTail : Chain → Prop
  | simples {s g} : IsRow {} s g → IsTail s
  | combinator {s r} {k : Combinator} : IsRow {} s {} → k.isVisible = true → IsRead {} r →
      IsTail (s ++ .combinator k :: r)

theorem strandsBehind_of_append {c r : Chain} (h : strandsBehind (c ++ r) = false) :
    strandsBehind r = false := by
  induction c with
  | nil => exact h
  | cons x c ih =>
    refine ih ?_
    cases x <;> first | exact h | exact (Bool.or_eq_false_iff.1 h).2

namespace IsTail

variable {b : Chain} {c : Component}

theorem cons (hb : IsTail b) (hc : c.fits {} = true) (hraised : c.raised = {}) : IsTail (c :: b) := by
  cases hb with
  | simples hs => exact .simples (.plain hc hraised hs)
  | combinator hs hk hr => exact .combinator (.plain hc hraised hs) hk hr

theorem isRead_cons (hb : IsTail b) (hc : c.fits {} = true) (hraised : c.raised = {}) :
    IsRead {} (c :: b) := by
  cases hb with
  | simples hs =>
    exact .compound (.mk (n := []) (y := []) (.inl rfl) .none (.inl rfl) (.plain hc hraised hs)
      (by simp))
  | @combinator s r k hs hk hr =>
    exact .combinator (c := c :: s) rfl
      (.mk (n := []) (y := []) (.inl rfl) .none (.inl rfl) (.plain hc hraised hs) (by simp)) hk hr

/-- What follows a type selector is written as simple selectors and what follows them. -/
theorem writesTail (hb : IsTail b) (hlegible : b.IsLegible {})
    (hbehind : strandsBehind b = false) : ∃ w, WritesTail {} b w := by
  cases hb with
  | simples hs => exact ⟨_, (hs.writesTail hlegible).1⟩
  | combinator hs hk hr =>
    rw [IsLegible, hs.along_append, along_cons_of_not_isPseudo rfl rfl] at hlegible
    rw [strandsBehind_append (hs.isPlain rfl).2, strandsBehind, Bool.or_eq_false_iff] at hbehind
    have hselector : WrittenSelector {} (textFrom false _) :=
      hr.writtenSelector hlegible.2 (fun _ => hbehind.1) hbehind.2
    exact ⟨_, (hs.writesTail_combinator rfl hlegible.1 hk hselector).1⟩

end IsTail

/-! ## Compounds in front -/

/-- Compounds, each with a combinator behind it. -/
inductive IsLinked : Chain → Prop
  | nil : IsLinked []
  | cons {c p} {k : Combinator} : IsReadCompound {} c {} → k.isVisible = true → IsLinked p →
      IsLinked (c ++ .combinator k :: p)

section Compounds

variable {c r p : Chain} {leading : Bool}

theorem IsReadCompound.isCompound (hc : IsReadCompound {} c {}) : IsCompound c := by
  obtain ⟨hn, hy, -, hs, -⟩ := hc
  exact isCompound_append (isCompound_append hn.isCompound hy.isCompound) (hs.isPlain rfl).2

/-- A compound that was read is read from what is written for it in front of a combinator. -/
theorem IsReadCompound.writtenCompound (hc : IsReadCompound {} c {}) (hlegible : c.IsLegible {})
    {k : Combinator} (hstrands : leading = false → strands (c ++ .combinator k :: r) = false) :
    WrittenCompound false {} (headText leading true c) {} := by
  obtain @⟨n, y, s, g, hn, hy, hmay, hs, hne⟩ := hc
  rw [IsLegible, along_head hn hy] at hlegible
  obtain ⟨hrow, hstarts⟩ := hs.writtenRow hlegible
  obtain ⟨v, hv, hcases⟩ := headText_cases hn hy leading s.isEmpty fun hl =>
    strands_of_append hn hy (hs.head?_isType (r := .combinator k :: r) rfl) (by
      rw [← List.append_assoc]
      exact hstrands hl)
  rw [headText_append (hs.isPlain rfl).1, Bool.true_and, hv]
  refine writtenCompound_head hn (isTypeText_of_cases hmay hcases) hrow ?_
  -- If nothing is written for the head and nothing behind it, there was nothing to write.
  rintro rfl rfl hnil
  have hempty : s = [] := by
    by_contra hs
    obtain ⟨c, -, hhead⟩ := hstarts hs
    rw [hnil] at hhead
    cases hhead
  subst hempty
  rcases hcases with ⟨-, rfl | hcase | hcase⟩ | htype
  · exact hne rfl
  · exact hcase rfl
  · cases hcase
  · exact writtenType_ne_nil htype.2 rfl

namespace IsLinked

theorem along_append {q : Flags → Component → Prop} (hp : IsLinked p) (r : Chain) :
    Along q {} (p ++ r) ↔ Along q {} p ∧ Along q {} r := by
  have hlink (k : Combinator) (r : Chain) : Along q {} (.combinator k :: r) ↔ Along q {} r :=
    along_cons_of_not_isPseudo rfl rfl r
  induction hp with
  | nil => simp [Along]
  | cons hc _ _ ih =>
    rw [List.append_assoc, List.cons_append, hc.along_append, hc.along_append, hlink, hlink,
      and_assoc, and_congr_right_iff]
    exact fun _ => ih

/-- What stands right behind the last combinator is not stranded. -/
theorem strands_of_append (hp : IsLinked p) (hne : p ≠ []) (h : strandsBehind (p ++ r) = false) :
    strands r = false := by
  induction hp with
  | nil => exact absurd rfl hne
  | @cons c p k hc _ hp ih =>
    rw [List.append_assoc, strandsBehind_append hc.isCompound, List.cons_append, strandsBehind,
      Bool.or_eq_false_iff] at h
    cases hp with
    | nil => exact h.1
    | cons => exact ih (by simp) h.2

/-- Compounds in front do not change whether a selector is read. -/
theorem spelledAs (hp : IsLinked p) {q : Except Failure (Chain × List Item) → Prop}
    (hlegible : p.IsLegible {}) (hstrands : leading = false → strands (p ++ r) = false)
    (hbehind : strandsBehind (p ++ r) = false)
    (h : SpelledAs EndsCompounds (CompoundsRead {} q) (textFrom (leading && p.isEmpty) r)) :
    SpelledAs EndsCompounds (CompoundsRead {} q) (textFrom leading (p ++ r)) := by
  induction hp generalizing leading with
  | nil => simpa using h
  | @cons c p k hc hk hp ih =>
    have hne : c ≠ [] := by
      obtain ⟨-, -, -, -, hne⟩ := hc
      exact hne
    rw [List.append_assoc, List.cons_append] at hstrands hbehind ⊢
    rw [IsLegible, hc.along_append, along_cons_of_not_isPseudo rfl rfl] at hlegible
    rw [strandsBehind_append hc.isCompound, strandsBehind, Bool.or_eq_false_iff] at hbehind
    rw [Chain.textFrom_append hc.isCompound hne hk]
    refine SpelledAs.append_combinator rfl (hc.writtenCompound hlegible.1 hstrands) hk ?_
    refine ih hlegible.2 (fun _ => hbehind.1) hbehind.2 ?_
    have hfalse : (leading && (c ++ .combinator k :: p).isEmpty) = false := by simp
    rwa [hfalse] at h

end IsLinked

end Compounds

/-! ## The front of a compound -/

theorem IsFront.isCompound {c : Chain} (hc : IsFront c) : IsCompound c := by
  cases hc with
  | @qualifier n q hn =>
    refine isCompound_append hn.isCompound fun x hx => ?_
    obtain ⟨n, -, rfl⟩ := List.mem_map.1 hx
    rfl
  | simples hn hy hs =>
    exact isCompound_append (isCompound_append hn.isCompound hy.isCompound) (hs.isPlain rfl).2

theorem IsFront.along_append {q : Flags → Component → Prop} {c : Chain} (hc : IsFront c)
    (r : Chain) : Along q {} (c ++ r) ↔ Along q {} c ∧ Along q {} r := by
  cases hc with
  | @qualifier n o hn =>
    have hplain : ∀ x ∈ n ++ o.toList.map Component.qualifier, x.isPseudo = false ∧ x.raised = {} := by
      rcases hn with rfl | rfl <;> cases o <;> simp [Component.isPseudo, Component.raised]
    have hfront := along_append_of_not_isPseudo (p := q) (f := {}) hplain []
    rw [List.append_nil] at hfront
    rw [along_append_of_not_isPseudo hplain, hfront]
    simp [Along]
  | simples hn hy hs =>
    rw [List.append_assoc, along_head hn hy, along_head hn hy, hs.along_append]

/-- A type selector and what follows it are written behind the front of their compound. -/
theorem IsFront.textFrom {c b : Chain} {w : List Char} (hc : IsFront c) (hb : WritesTail {} b w)
    (leading : Bool) (name : String) : Chain.textFrom leading (c ++ .tag name :: b) =
      headText leading false c ++ (identText name ++ w) := by
  obtain ⟨alone, -, htext⟩ := hb.textFrom
  have htag : IsCompound [.tag name] := by
    intro x hx
    obtain rfl := List.mem_singleton.1 hx
    rfl
  have hbare : IsBare [.tag name] := by
    intro x hx
    obtain rfl := List.mem_singleton.1 hx
    exact ⟨rfl, rfl⟩
  have hall : c ++ .tag name :: b = (c ++ [.tag name]) ++ b := by simp
  rw [hall, htext leading _ (isCompound_append hc.isCompound htag) (.inl (by simp)),
    headText_append hbare]
  simp

/-! ## Replacements -/

/-- The components that are put in the place of an anchor: a type selector, and behind it a
sibling with a class or an attribute. -/
inductive IsReplacement : Chain → Prop
  | sibling {name} : name ≠ "" →
      IsReplacement [.tag "u", .combinator .nextSibling, .className name]
  | body {a : Attribute} : a.name ≠ "" → a.qualifier.all Namespace.isNamed = true →
      IsReplacement [.tag "body", .attribute a]

/-- What is behind the type selector of a replacement makes no difference to what follows. -/
theorem IsReplacement.tail {new : Chain} (h : IsReplacement new) :
    ∃ name rest, new = .tag name :: rest ∧ identText name ∈ joints ∧ ∀ b, IsTail b →
      IsTail (rest ++ b) ∧ (IsLegible {} (rest ++ b) ↔ IsLegible {} b) ∧
        strandsBehind (rest ++ b) = strandsBehind b := by
  cases h with
  | @sibling name hname =>
    refine ⟨"u", _, rfl, by decide, fun b hb => ⟨?_, ?_, Bool.false_or _⟩⟩
    · have hfits : Component.fits {} (.className name) = true := by
        simpa [Component.fits, Flags.afterAny] using hname
      exact .combinator (s := []) (k := .nextSibling) .nil rfl (hb.isRead_cons hfits rfl)
    · exact along_append_of_not_isPseudo (by simp [Component.isPseudo, Component.raised]) b
  | @body a hname hqualifier =>
    refine ⟨"body", _, rfl, by decide, fun b hb => ⟨?_, ?_, rfl⟩⟩
    · have hfits : Component.fits {} (.attribute a) = true := by
        simp [Component.fits, Flags.afterAny, hname, hqualifier]
      exact hb.cons hfits rfl
    · exact along_cons_of_not_isPseudo rfl rfl b

/-- A replacement behind compounds and the front of one. -/
theorem IsReplacement.spliced {new p c b : Chain} (h : IsReplacement new) (hp : IsLinked p)
    (hc : IsFront c) (hb : IsTail b)
    (hlegible : IsLegible {} p ∧ IsLegible {} c ∧ IsLegible {} b)
    (hbehind : strandsBehind (p ++ (c ++ new ++ b)) = false) :
    (admitsType (headText p.isEmpty false c) = true →
      WrittenSelector {} (textFrom true (p ++ (c ++ new ++ b)))) ∧
    (admitsType (headText p.isEmpty false c) = false →
      BrokenSelector {} (textFrom true (p ++ (c ++ new ++ b)))) := by
  obtain ⟨name, rest, rfl, hjoint, hrest⟩ := h.tail
  obtain ⟨htail, hrestlegible, hstrands⟩ := hrest b hb
  have hall : c ++ .tag name :: rest ++ b = c ++ .tag name :: (rest ++ b) := by simp
  rw [hall] at hbehind ⊢
  have hlast : strandsBehind (.tag name :: (rest ++ b)) = false :=
    strandsBehind_of_append (strandsBehind_of_append hbehind)
  obtain ⟨w, hw⟩ := htail.writesTail (hrestlegible.2 hlegible.2.2) hlast
  have hjoins := hc.joins hlegible.2.1 hjoint p.isEmpty (x := .tag name) (r := rest ++ b)
    fun hempty => hp.strands_of_append (by
      rintro rfl
      cases hempty) hbehind
  have htext := hc.textFrom hw p.isEmpty name
  refine ⟨fun hadmits => ?_, fun hrefuses => ?_⟩
  · refine hp.spelledAs hlegible.1 (by rintro ⟨⟩) hbehind ?_
    rw [Bool.true_and, htext]
    exact hjoins.admitted hadmits w hw.written
  · obtain ⟨F, hspelled, hF⟩ := hjoins.refused hrefuses
    refine hp.spelledAs hlegible.1 (by rintro ⟨⟩) hbehind ?_
    rw [Bool.true_and, htext]
    exact hspelled.brokenSelector (isIdent_of_mem_joints hjoint) hF hw.written

/-! ## The anchor -/

section Anchor

variable {bodyClass : String}

/-- What is written in front of the anchor in its compound, if there is an anchor; `front` are the
components in front of it so far, and `leading` says that their compound is the first. -/
def frontFrom (bodyClass : String) (leading : Bool) (front : Chain) : Chain → Option (List Char)
  | [] => none
  | x :: r =>
    if x.isAnchor bodyClass then some (headText leading false front)
    else if x.isCombinator then frontFrom bodyClass false [] r
    else frontFrom bodyClass leading (front ++ [x]) r

/-- Whether a replacement can be read in the place of the anchor, if there is one. -/
def admitsReplacement (bodyClass : String) (chain : Chain) : Bool :=
  (frontFrom bodyClass true [] chain).all admitsType

theorem frontFrom_of_noAnchor {c : Chain} (hc : NoAnchor bodyClass c) (leading : Bool)
    (front : Chain) : frontFrom bodyClass leading front c = none := by
  induction c generalizing leading front with
  | nil => rfl
  | cons x c ih =>
    have ih' := ih fun y hy => hc y (List.mem_cons_of_mem _ hy)
    rw [frontFrom, hc x List.mem_cons_self, if_neg Bool.false_ne_true]
    split
    · exact ih' _ _
    · exact ih' _ _

theorem frontFrom_append {c : Chain} (hc : NoAnchor bodyClass c) (hcompound : IsCompound c)
    (leading : Bool) (front r : Chain) :
    frontFrom bodyClass leading front (c ++ r) = frontFrom bodyClass leading (front ++ c) r := by
  induction c generalizing front with
  | nil => simp
  | cons x c ih =>
    have hx := hcompound x List.mem_cons_self
    rw [List.cons_append, frontFrom, hc x List.mem_cons_self, hx, if_neg Bool.false_ne_true,
      if_neg Bool.false_ne_true, ih (fun y hy => hc y (List.mem_cons_of_mem _ hy))
        fun y hy => hcompound y (List.mem_cons_of_mem _ hy)]
    simp

theorem IsLinked.frontFrom_append {p : Chain} (hp : IsLinked p) (hnone : NoAnchor bodyClass p)
    (leading : Bool) (r : Chain) :
    frontFrom bodyClass leading [] (p ++ r) = frontFrom bodyClass (leading && p.isEmpty) [] r := by
  induction hp generalizing leading with
  | nil => simp
  | @cons c p k hc _ _ ih =>
    have hc' : NoAnchor bodyClass c := fun x hx => hnone x (List.mem_append_left _ hx)
    have hp' : NoAnchor bodyClass p := fun x hx =>
      hnone x (List.mem_append_right _ (List.mem_cons_of_mem _ hx))
    have hk : (Component.combinator k).isAnchor bodyClass = false := rfl
    have hcombinator : (Component.combinator k).isCombinator = true := rfl
    rw [List.append_assoc, List.cons_append, Chain.frontFrom_append hc' hc.isCompound, frontFrom, hk,
      if_neg Bool.false_ne_true, if_pos hcombinator, ih hp' false]
    have hfalse : (leading && (c ++ .combinator k :: p).isEmpty) = false := by simp
    rw [hfalse, Bool.false_and]

/-- The front of the anchor's compound is what admits a replacement. -/
theorem admitsReplacement_eq {p c b : Chain} {x : Component} (hp : IsLinked p) (hc : IsFront c)
    (hnone : NoAnchor bodyClass (p ++ c)) (hx : x.isAnchor bodyClass = true) :
    admitsReplacement bodyClass (p ++ (c ++ x :: b)) = admitsType (headText p.isEmpty false c) := by
  have hp' : NoAnchor bodyClass p := fun y hy => hnone y (List.mem_append_left _ hy)
  have hc' : NoAnchor bodyClass c := fun y hy => hnone y (List.mem_append_right _ hy)
  rw [admitsReplacement, hp.frontFrom_append hp', frontFrom_append hc' hc.isCompound, frontFrom,
    if_pos hx]
  simp

/-! ## Cutting a chain at its anchor -/

/-- Behind a pseudo-element that is known there is no anchor. -/
theorem IsRow.noAnchor_of_afterAny {f g : Flags} {s : Chain} (hs : IsRow f s g)
    (hf : f.afterAny = true) : NoAnchor bodyClass s := by
  have hfits {f : Flags} (hf : f.afterAny = true) {c : Component} (hc : c.fits f = true) :
      c.isAnchor bodyClass = false := by
    cases c with
    | className name => simp [Component.fits, hf] at hc
    | tag name => cases hc
    | _ => rfl
  induction hs with
  | nil =>
    rintro x ⟨⟩
  | plain hc _ _ ih =>
    intro x hx
    rcases List.mem_cons.1 hx with rfl | hx
    · exact hfits hf hc
    · exact ih hf x hx
  | element _ hc hraised _ ih =>
    intro x hx
    rcases List.mem_cons.1 hx with rfl | hx
    · rfl
    · rcases List.mem_cons.1 hx with rfl | hx
      · exact hfits hf hc
      · exact ih (by rw [Flags.afterAny_join, hf, Bool.true_or]) x hx

/-- A row of simple selectors is cut at the first class that is an anchor. -/
theorem IsRow.exists_anchor {f g : Flags} {s : Chain} (hs : IsRow f s g)
    (hany : ¬ NoAnchor bodyClass s) :
    ∃ c x b, s = c ++ x :: b ∧ NoAnchor bodyClass c ∧ x.isAnchor bodyClass = true ∧
      IsRow f c f ∧ IsRow f b g := by
  induction hs with
  | nil => exact absurd (by rintro x ⟨⟩) hany
  | @plain f g c cs hc hraised hs ih =>
    cases hanchor : c.isAnchor bodyClass with
    | true => exact ⟨[], c, cs, rfl, by rintro x ⟨⟩, hanchor, .nil, hs⟩
    | false =>
      obtain ⟨d, x, b, rfl, hd, hx, hrow, hb⟩ := ih fun hnone => hany fun x hx => by
        rcases List.mem_cons.1 hx with rfl | hx
        · exact hanchor
        · exact hnone x hx
      refine ⟨c :: d, x, b, rfl, ?_, hx, .plain hc hraised hrow, hb⟩
      intro y hy
      rcases List.mem_cons.1 hy with rfl | hy
      · exact hanchor
      · exact hd y hy
  | @element f g k c cs _ _ hraised hs _ =>
    -- Neither the pseudo-element nor anything behind it is an anchor.
    refine absurd (fun x hx => ?_) hany
    rcases List.mem_cons.1 hx with rfl | hx
    · rfl
    · rcases List.mem_cons.1 hx with rfl | hx
      · cases x <;> first | rfl | cases hraised
      · exact hs.noAnchor_of_afterAny (by rw [Flags.afterAny_join, hraised, Bool.or_true]) x hx

theorem noAnchor_append {c d : Chain} :
    NoAnchor bodyClass (c ++ d) ↔ NoAnchor bodyClass c ∧ NoAnchor bodyClass d :=
  List.forall_mem_append

/-- A compound is cut at its anchor: its type selector, or the first class that is one. -/
theorem exists_anchor_compound {n y s r : Chain} {g : Flags} (hn : IsNesting n)
    (hy : IsTypeSelector y) (hs : IsRow {} s g) (hr : ∀ b, IsRow {} b g → IsTail (b ++ r))
    (hany : ¬ NoAnchor bodyClass (n ++ y ++ s)) :
    ∃ c x b, n ++ y ++ s ++ r = c ++ x :: b ∧ IsFront c ∧ IsTail b ∧ NoAnchor bodyClass c ∧
      x.isAnchor bodyClass = true := by
  have hn' : NoAnchor bodyClass n := by
    rcases hn with rfl | rfl
    · rintro x ⟨⟩
    · intro x hx
      obtain rfl := List.mem_singleton.1 hx
      rfl
  -- The nesting selector is no anchor, and a tag comes before all simple selectors.
  by_cases hnone : NoAnchor bodyClass y
  · rw [noAnchor_append, noAnchor_append] at hany
    obtain ⟨c, x, b, rfl, hc, hx, hrow, hb⟩ := hs.exists_anchor fun hs' => hany ⟨⟨hn', hnone⟩, hs'⟩
    exact ⟨n ++ y ++ c, x, b ++ r, by simp, .simples hn hy hrow, hr b hb,
      noAnchor_append.2 ⟨noAnchor_append.2 ⟨hn', hnone⟩, hc⟩, hx⟩
  · have hqualifier (q : Option Namespace) :
        NoAnchor bodyClass (q.toList.map Component.qualifier) := by
      intro x hx
      obtain ⟨q, -, rfl⟩ := List.mem_map.1 hx
      rfl
    have hsingle {x : Component} (hx : x.isAnchor bodyClass = false) : NoAnchor bodyClass [x] := by
      intro y hy
      obtain rfl := List.mem_singleton.1 hy
      exact hx
    cases hy with
    | none => exact absurd (by rintro x ⟨⟩) hnone
    | universal => exact absurd (noAnchor_append.2 ⟨hqualifier _, hsingle rfl⟩) hnone
    | @tag q name hq =>
      have hx : (Component.tag name).isAnchor bodyClass = true := by
        by_contra hx
        exact hnone (noAnchor_append.2 ⟨hqualifier q, hsingle (by simpa using hx)⟩)
      exact ⟨n ++ q.toList.map Component.qualifier, .tag name, s ++ r, by simp, .qualifier hn hq,
        hr s hs, noAnchor_append.2 ⟨hn', hqualifier q⟩, hx⟩

/-- A chain that was read is cut at its anchor. -/
theorem IsRead.exists_anchor {chain : Chain} (h : IsRead {} chain)
    (hany : ¬ NoAnchor bodyClass chain) :
    ∃ p c x b, chain = p ++ (c ++ x :: b) ∧ IsLinked p ∧ IsFront c ∧ IsTail b ∧
      NoAnchor bodyClass (p ++ c) ∧ x.isAnchor bodyClass = true := by
  induction h with
  | compound hc =>
    obtain ⟨hn, hy, -, hs, -⟩ := hc
    obtain ⟨c, x, b, heq, hc, hb, hnone, hx⟩ := exists_anchor_compound hn hy hs (r := [])
      (fun b hb => by
        rw [List.append_nil]
        exact .simples hb) hany
    rw [List.append_nil] at heq
    exact ⟨[], c, x, b, by rw [heq, List.nil_append], .nil, hc, hb, hnone, hx⟩
  | @combinator c k r _ hc hk hr ih =>
    by_cases hcnone : NoAnchor bodyClass c
    · have hrany : ¬ NoAnchor bodyClass r := fun hrnone =>
        hany (noAnchor_append.2 ⟨hcnone, fun x hx => by
          rcases List.mem_cons.1 hx with rfl | hx
          · rfl
          · exact hrnone x hx⟩)
      obtain ⟨p, d, x, b, rfl, hp, hd, hb, hnone, hx⟩ := ih hrany
      refine ⟨c ++ .combinator k :: p, d, x, b, by simp, .cons hc hk hp, hd, hb, ?_, hx⟩
      rw [List.append_assoc, List.cons_append, noAnchor_append]
      refine ⟨hcnone, fun y hy => ?_⟩
      rcases List.mem_cons.1 hy with rfl | hy
      · rfl
      · exact hnone y hy
    · obtain ⟨hn, hy, -, hs, -⟩ := hc
      obtain ⟨d, x, b, heq, hd, hb, hnone, hx⟩ := exists_anchor_compound hn hy hs
        (r := .combinator k :: r) (fun b hb => .combinator hb hk hr) hcnone
      exact ⟨[], d, x, b, by rw [heq, List.nil_append], .nil, hd, hb, hnone, hx⟩

/-! ## Retargeting -/

/-- A chain with a replacement in the place of its anchor, or in front if there is none, is read
from what is written for it if the front of the anchor admits a type selector, and broken
otherwise. -/
theorem IsRead.retarget {new chain : Chain} (h : IsRead {} chain) (hnew : IsReplacement new)
    (hlegible : chain.IsLegible {})
    (hbehind : strandsBehind (Chain.retarget bodyClass new chain) = false) :
    (admitsReplacement bodyClass chain = true →
      WrittenSelector {} (textFrom true (Chain.retarget bodyClass new chain))) ∧
    (admitsReplacement bodyClass chain = false →
      BrokenSelector {} (textFrom true (Chain.retarget bodyClass new chain))) := by
  by_cases hnone : NoAnchor bodyClass chain
  · -- Without an anchor the replacement stands behind an empty front, and the chain behind it.
    have hne : new.isEmpty = false := by
      cases hnew <;> rfl
    have hretarget : Chain.retarget bodyClass new chain =
        [] ++ ([] ++ new ++ .combinator .descendant :: chain) := by
      rw [retarget_of_noAnchor hnone, prepend, hne]
      rfl
    have hfront : IsFront [] := .simples (n := []) (y := []) (.inl rfl) .none .nil
    have htail : IsTail (.combinator .descendant :: chain) := .combinator (s := []) .nil rfl h
    have hadmits : admitsReplacement bodyClass chain = true := by
      rw [admitsReplacement, frontFrom_of_noAnchor hnone]
      rfl
    rw [hretarget] at hbehind ⊢
    obtain ⟨hwritten, -⟩ := hnew.spliced .nil hfront htail
      ⟨trivial, trivial, (along_cons_of_not_isPseudo rfl rfl chain).2 hlegible⟩ hbehind
    refine ⟨fun _ => hwritten rfl, fun hrefuses => ?_⟩
    rw [hadmits] at hrefuses
    cases hrefuses
  · obtain ⟨p, c, x, b, rfl, hp, hc, hb, hnone, hx⟩ := h.exists_anchor hnone
    have hretarget : Chain.retarget bodyClass new (p ++ (c ++ x :: b)) = p ++ (c ++ new ++ b) := by
      rw [← List.append_assoc, retarget_append hnone hx]
      simp
    have hplain : x.isPseudo = false ∧ x.raised = {} := by
      cases x <;> first | exact ⟨rfl, rfl⟩ | cases hx
    rw [IsLegible, hp.along_append, hc.along_append,
      along_cons_of_not_isPseudo hplain.1 hplain.2] at hlegible
    rw [hretarget] at hbehind ⊢
    rw [admitsReplacement_eq hp hc hnone hx]
    exact hnew.spliced hp hc hb hlegible hbehind

end Anchor

end Chain

end MailCss
