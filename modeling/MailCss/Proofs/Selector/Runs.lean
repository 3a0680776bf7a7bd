import MailCss.Proofs.Css.Stop
import MailCss.Proofs.Selector.Attributes
import MailCss.Selector.Printer

/-!
# Texts put together from pieces

What is written for a list of selectors need not be one: a namespace may have lost its star, and a
name may stand right behind another. It falls into tokens all the same. A text runs on (`RunsOn`) if
it is spelled behind anything that may go on with it, and a piece (`IsPiece`) can be put in front of
any text that does; so pieces in a row are a piece.

Main statements: `IsPiece.spells` and `isPiece_list`.
-/

namespace MailCss

open Css

/-- The end of a text, if what is behind it may go on with it: a name, or white space. -/
inductive OpenEnd : List Char → Prop
  | none : OpenEnd []
  | ident {v} : IsIdent v → OpenEnd v
  | hash {v} : IsIdent v → OpenEnd ('#' :: v)
  | spaces {v} : v ≠ [] → (∀ c ∈ v, c = ' ') → OpenEnd v

/-- What goes on with no name, star or white space. -/
structure EndsRuns (r : List Char) : Prop where
  idents : EndsIdents r
  equals : BeginsWithout '=' r
  spaces : BeginsNoSpace r

/-- A text that is spelled in front of what ends it, also behind an open end. -/
structure RunsOn (w : List Char) : Prop where
  spelled : ∀ v, OpenEnd v → ∃ ts, Spells EndsRuns (v ++ w) ts
  equals : BeginsWithout '=' w

/-- A text that can be put in front of any that runs on. -/
def IsPiece (p : List Char) : Prop := ∀ w, RunsOn w → RunsOn (p ++ w)

/-! ## What ends where a mark begins -/

/-- Whether a character goes on with no name, star or white space. -/
def endsRun (c : Char) : Bool :=
  !inName c && !isSpace c && c ∉ ['\\', '\n', '\r', '\x0c', '(', '>', '=']

section OpenEnd

variable {v w r : List Char} {c : Char} {ts : List TokenTree}

theorem endsRuns_cons (hc : endsRun c = true) (r : List Char) : EndsRuns (c :: r) := by
  simp only [endsRun, Bool.and_eq_true, Bool.not_eq_true', decide_eq_true_eq, List.mem_cons,
    List.not_mem_nil, or_false, not_or] at hc
  obtain ⟨⟨hname, hspace⟩, hslash, hline, hreturn, hfeed, hparen, hgreater, hequals⟩ := hc
  refine ⟨endsIdents_cons hname ?_ r, by simpa [BeginsWithout] using hequals, ?_⟩
  · simp [hslash, hline, hreturn, hfeed, hparen, hgreater]
  · rintro d ⟨⟩
    exact hspace

theorem spells_spaces (hne : v ≠ []) (hv : ∀ c ∈ v, c = ' ') :
    Spells BeginsNoSpace v [.leaf ⟨.whitespace (String.ofList v), v⟩] := by
  have hspace : ∀ c ∈ v, isSpace c = true := by
    intro c hc
    rw [hv c hc]
    rfl
  exact spells_leaf rfl rfl fun r hr => lexemes_spaces hspace hne hr

/-- An open end ends in front of a mark. -/
theorem OpenEnd.append (hv : OpenEnd v) (hw : Spells EndsRuns (c :: w) ts)
    (hc : endsRun c = true) : ∃ us, Spells EndsRuns (v ++ c :: w) us := by
  have hends (r : List Char) : EndsRuns (c :: w ++ r) := endsRuns_cons hc _
  cases hv with
  | none => exact ⟨_, hw⟩
  | ident hv => exact ⟨_, (spells_ident hv).append hw fun r _ => (hends r).idents⟩
  | hash hv => exact ⟨_, (spells_idHash hv).append hw fun r _ => (hends r).idents.1⟩
  | spaces hne hv => exact ⟨_, (spells_spaces hne hv).append hw fun r _ => (hends r).spaces⟩

/-- A name at an open end ends in front of white space, and white space there goes on with it. -/
theorem OpenEnd.append_spaces {u : List Char} (hv : OpenEnd v) (hu : u ≠ [])
    (hspaces : ∀ c ∈ u, c = ' ')
    (hw : ∀ x, x ≠ [] → (∀ c ∈ x, c = ' ') → ∃ ts, Spells EndsRuns (x ++ w) ts) :
    ∃ us, Spells EndsRuns (v ++ (u ++ w)) us := by
  have hends (r : List Char) : EndsIdents (u ++ w ++ r) := by
    obtain ⟨c, u, rfl⟩ := List.exists_cons_of_ne_nil hu
    rw [hspaces c List.mem_cons_self]
    exact endsIdents_cons (by decide) (by decide) _
  obtain ⟨ts, hts⟩ := hw u hu hspaces
  cases hv with
  | none => exact ⟨_, hts⟩
  | ident hv => exact ⟨_, (spells_ident hv).append hts fun r _ => hends r⟩
  | hash hv => exact ⟨_, (spells_idHash hv).append hts fun r _ => (hends r).1⟩
  | spaces hne hv =>
    rw [← List.append_assoc]
    exact hw _ (by simp [hu]) fun c hc => (List.mem_append.1 hc).elim (hv c) (hspaces c)

theorem RunsOn.beginsWithout_equals (hw : RunsOn w) (hr : EndsRuns r) :
    BeginsWithout '=' (w ++ r) := by
  cases w with
  | nil => exact hr.equals
  | cons c w => exact hw.equals

end OpenEnd

theorem runsOn_nil : RunsOn [] where
  spelled v hv := by
    rw [List.append_nil]
    cases hv with
    | none => exact ⟨_, .nil⟩
    | ident hv => exact ⟨_, (spells_ident hv).mono fun _ h => h.idents⟩
    | hash hv => exact ⟨_, (spells_idHash hv).mono fun _ h => h.idents.1⟩
    | spaces hne hv => exact ⟨_, (spells_spaces hne hv).mono fun _ h => h.spaces⟩
  equals := by simp [BeginsWithout]

/-! ## Pieces -/

namespace IsPiece

variable {p q u w : List Char}

/-- A piece has token trees. -/
theorem spells (hp : IsPiece p) : ∃ ts, Spells EndsRuns p ts := by
  have hruns := (hp [] runsOn_nil).spelled [] .none
  rwa [List.append_nil] at hruns

theorem nil : IsPiece [] := fun _ hw => hw

theorem append (hp : IsPiece p) (hq : IsPiece q) : IsPiece (p ++ q) := by
  intro w hw
  rw [List.append_assoc]
  exact hp _ (hq w hw)

theorem flatMap {α : Type} {f : α → List Char} {l : List α} (h : ∀ a ∈ l, IsPiece (f a)) :
    IsPiece (l.flatMap f) := by
  induction l with
  | nil => exact nil
  | cons a l ih =>
    rw [List.flatMap_cons]
    exact (h a List.mem_cons_self).append (ih fun b hb => h b (List.mem_cons_of_mem _ hb))

/-- Names in a row are one name. -/
theorem ident (hu : IsIdent u) : IsPiece u := by
  intro w hw
  refine ⟨fun v hv => ?_, beginsWithout_equals_append hu w⟩
  rw [← List.append_assoc]
  cases hv with
  | none => exact hw.spelled _ (.ident hu)
  | ident hv => exact hw.spelled _ (.ident (hv.append hu.name))
  | hash hv => exact hw.spelled _ (.hash (hv.append hu.name))
  | spaces hne hv =>
    obtain ⟨ts, hts⟩ := hw.spelled u (.ident hu)
    rw [List.append_assoc]
    refine ⟨_, (spells_spaces hne hv).append hts fun r _ => ?_⟩
    obtain ⟨d, u, rfl⟩ := List.exists_cons_of_ne_nil hu.ne_nil
    rintro c ⟨⟩
    exact (hu.head _ rfl).2

theorem hash (hu : IsIdent u) : IsPiece ('#' :: u) := by
  intro w hw
  refine ⟨fun v hv => ?_, by simp [BeginsWithout]⟩
  obtain ⟨ts, hts⟩ := hw.spelled _ (.hash hu)
  exact hv.append hts (by decide)

theorem space : IsPiece [' '] := by
  intro w hw
  refine ⟨fun v hv => ?_, by simp [BeginsWithout]⟩
  exact hv.append_spaces (by simp) (by simp) fun x hne hx => hw.spelled x (.spaces hne hx)

/-- A mark between spaces. -/
theorem spaced {F : List Char → Prop} {c : Char} {ts : List TokenTree} (hc : Spells F [c] ts)
    (hF : ∀ r, F (' ' :: r)) (hspace : isSpace c = false) : IsPiece [' ', c, ' '] := by
  intro w hw
  refine ⟨fun v hv => ?_, by simp [BeginsWithout]⟩
  obtain ⟨us, hus⟩ := (space w hw).spelled [] .none
  have hmark : Spells EndsRuns ([c] ++ (' ' :: w)) (ts ++ us) := hc.append hus fun r _ => hF _
  refine hv.append_spaces (u := [' ']) (by simp) (by simp) fun x hne hx => ?_
  refine ⟨_, (spells_spaces hne hx).append hmark fun r _ => ?_⟩
  rintro d ⟨⟩
  exact hspace

/-- A text that begins with a mark, in front of what it may stand in front of. -/
theorem of_spells {G : List Char → Prop} {c : Char} {ts : List TokenTree}
    (hp : Spells G (c :: p) ts) (hc : endsRun c = true)
    (hG : ∀ w r, RunsOn w → EndsRuns r → G (w ++ r)) : IsPiece (c :: p) := by
  intro w hw
  refine ⟨fun v hv => ?_, (endsRuns_cons hc _).equals⟩
  obtain ⟨us, hus⟩ := hw.spelled [] .none
  exact hv.append (hp.append hus fun r hr => hG w r hw hr) hc

/-- A name behind a mark. -/
theorem marked {G : List Char → Prop} {c : Char} {ts : List TokenTree} (hspells : Spells G [c] ts)
    (hc : endsRun c = true) (hG : ∀ r, G (u ++ r)) (hu : IsIdent u) : IsPiece (c :: u) := by
  intro w hw
  refine ⟨fun v hv => ?_, (endsRuns_cons hc _).equals⟩
  obtain ⟨us, hus⟩ := hw.spelled u (.ident hu)
  refine hv.append (hspells.append hus fun r _ => ?_) hc
  have hfront := hG (w ++ r)
  rwa [← List.append_assoc] at hfront

theorem className (hu : IsIdent u) : IsPiece ('.' :: u) :=
  marked spells_point (by decide) (beginsNoDigit_append hu) hu

theorem pseudo (hu : IsIdent u) : IsPiece (':' :: u) :=
  marked spells_colon (by decide) (fun _ => trivial) hu

theorem colon : IsPiece [':'] := of_spells spells_colon (by decide) fun _ _ _ _ => trivial

theorem ampersand : IsPiece ['&'] := of_spells spells_ampersand (by decide) fun _ _ _ _ => trivial

theorem comma : IsPiece [','] := of_spells spells_comma (by decide) fun _ _ _ _ => trivial

theorem star : IsPiece ['*'] :=
  of_spells spells_star (by decide) fun _ _ hw hr => hw.beginsWithout_equals hr

theorem bar : IsPiece ['|'] :=
  of_spells spells_bar (by decide) fun _ _ hw hr => hw.beginsWithout_equals hr

end IsPiece

/-! ## Selectors -/

theorem isPiece_combinator (k : Combinator) : IsPiece k.text := by
  cases k with
  | descendant => exact .space
  | child => exact .spaced spells_greater (fun _ => trivial) rfl
  | nextSibling =>
    refine .spaced spells_plus (fun r => ?_) rfl
    rintro c ⟨⟩
    decide
  | laterSibling => exact .spaced spells_tilde (fun r => by simp [BeginsWithout]) rfl
  | _ => exact .nil

theorem isPiece_namespace {n : Namespace} (hn : n.isNamed = true) : IsPiece n.text := by
  cases n with
  | any => exact IsPiece.star.append .bar
  | empty => exact .bar
  | named label =>
    have hlabel : label ≠ "" := by simpa [Namespace.isNamed] using hn
    exact (IsPiece.ident (isIdent_identText hlabel)).append .bar

theorem isPiece_joinTexts {sep : List Char} (hsep : IsPiece sep) {ws : List (List Char)}
    (hws : ∀ w ∈ ws, IsPiece w) : IsPiece (joinTexts sep ws) := by
  induction ws with
  | nil => exact .nil
  | cons w ws ih =>
    have hw := hws w List.mem_cons_self
    have hrest := ih fun v hv => hws v (List.mem_cons_of_mem _ hv)
    cases ws with
    | nil => exact hw
    | cons v ws => exact (hw.append hsep).append hrest

namespace Printed

theorem isPiece_texts {c : List Printed} (hc : ∀ p ∈ c, IsPiece p.text) : IsPiece (texts c) :=
  .flatMap hc

theorem isPiece_compound (leading : Bool) (next : Option Combinator) {c : List Printed}
    (hc : ∀ p ∈ c, IsPiece p.text) : IsPiece (compound leading next c) := by
  have hkept (b : Bool) :
      IsPiece (if b then texts c else texts (c.filter fun p => !p.component.isUniversal)) := by
    cases b with
    | true => exact isPiece_texts hc
    | false => exact isPiece_texts fun p hp => hc p (List.mem_filter.1 hp).1
  exact hkept _

theorem isPiece_compounds {cs : List (List Printed)} (hcs : ∀ c ∈ cs, ∀ p ∈ c, IsPiece p.text)
    (leading relative : Bool) (ks : List Combinator) :
    IsPiece (compounds leading relative cs ks) := by
  have hlink (o : Option Combinator) : IsPiece (o.elim [] Combinator.text) := by
    cases o with
    | none => exact .nil
    | some k => exact isPiece_combinator k
  induction cs generalizing leading relative ks with
  | nil => exact .nil
  | cons c cs ih =>
    have ih := ih fun d hd => hcs d (List.mem_cons_of_mem _ hd)
    -- A scope selector in front is left out, and its combinator comes in front of all the rest.
    have hstep (front : List Char) (hfront : IsPiece front) (relative : Bool) (ks : List Combinator)
        (d : List Printed) (hd : ∀ p ∈ d, IsPiece p.text) :
        IsPiece (if d.isEmpty then front ++ compounds leading relative cs ks
          else front ++ compound leading ks.head? d ++ ks.head?.elim [] Combinator.text ++
            compounds false relative cs (ks.drop 1)) := by
      split
      · exact hfront.append (ih _ _ _)
      · exact ((hfront.append (isPiece_compound _ _ hd)).append (hlink _)).append (ih _ _ _)
    have hc := hcs c List.mem_cons_self
    rw [compounds]
    cases (relative && c.head?.any (·.component.isScope)) with
    | true => exact hstep _ (hlink _) _ _ _ fun p hp => hc p (List.mem_of_mem_drop hp)
    | false => exact hstep _ .nil _ _ _ hc

theorem isPiece_selector {s : List Printed} (hs : ∀ p ∈ s, IsPiece p.text) (relative : Bool) :
    IsPiece (selector relative s) := by
  refine isPiece_compounds (fun c hc p hp => hs p ?_) _ _ _
  rw [compoundsBy, List.mem_reverse] at hc
  have hmem : p ∈ (Sequence.splitWhere (fun q => q.component.isCombinator) s).flatten :=
    List.mem_flatten.2 ⟨c, hc, hp⟩
  rw [Sequence.flatten_splitWhere] at hmem
  exact (List.mem_filter.1 hmem).1

/-- What is written for a list of selectors is made of what is written for their components. -/
theorem isPiece_list {ss : List (List Printed)} (hss : ∀ s ∈ ss, ∀ p ∈ s, IsPiece p.text)
    (relative : Bool) : IsPiece (list relative ss) := by
  refine isPiece_joinTexts (IsPiece.comma.append .space) fun w hw => ?_
  obtain ⟨s, hs, rfl⟩ := List.mem_map.1 hw
  exact isPiece_selector (hss s hs) relative

end Printed

end MailCss
