import Mathlib.Data.List.TakeWhile
import Mathlib.Tactic.SplitIfs
import MailCss.Selector.List

/-!
# Reading simple selectors

What is read as a simple selector (`SimpleAt`), and that it is read from the same items whatever
more is behind them.
-/

namespace MailCss

open Css (Token TokenTree)

theorem exists_of_map_eq_ok {ε α β : Type} {f : α → β} {x : Except ε α} {b : β}
    (h : x.map f = .ok b) : ∃ a, x = .ok a ∧ f a = b := by
  cases x with
  | error e => cases h
  | ok a =>
    cases h
    exact ⟨a, rfl, rfl⟩

theorem exists_of_bind_eq_ok {ε α β : Type} {x : Except ε α} {f : α → Except ε β} {b : β}
    (h : x >>= f = .ok b) : ∃ a, x = .ok a ∧ f a = .ok b := by
  cases x with
  | error e => cases h
  | ok a => exact ⟨a, rfl, h⟩

namespace Item

@[simp] theorem token_ofTree (t : TokenTree) : (ofTree t).token = t.token := by
  cases t <;> rfl

theorem ofTrees_eq_map (ts : List TokenTree) : ofTrees ts = ts.map ofTree := by
  induction ts with
  | nil => rfl
  | cons t ts ih => rw [ofTrees, ih, List.map_cons]

@[simp] theorem ofTrees_append (ts us : List TokenTree) :
    ofTrees (ts ++ us) = ofTrees ts ++ ofTrees us := by
  simp [ofTrees_eq_map]

end Item

theorem dropComments_append {items r : List Item} {t : Item} (h : dropComments items = t :: r)
    (rest : List Item) : dropComments (items ++ rest) = t :: (r ++ rest) := by
  rw [dropComments] at h
  rw [dropComments, List.dropWhile_append, h]
  rfl

/-! ## What is read -/

/-- Whether a name behind a colon is that of a pseudo-element; `doubled` says that there are two
colons. -/
def isElementName (doubled : Bool) (name : String) : Bool :=
  doubled || Names.lower name ∈ Names.oneColon

/-- What is read behind colons at the item `t`. -/
inductive PseudoAt (f : Flags) (doubled : Bool) (t : Item) : Simple → Prop
  | plainElement {name} : t.token = .ident name → isElementName doubled name = true →
      (f.afterElement || f.noPseudoElements) = false →
      (f.afterSlotted && !(Names.pseudoElement? name).any (· ∈ Names.slottable)) = false →
      PseudoAt f doubled t (plainPseudoElement name)
  | plainClass {name c} : t.token = .ident name → isElementName doubled name = false →
      plainPseudoClass f name = .ok c → PseudoAt f doubled t { components := [c] }
  | element {name s} : t.token = .function name → isElementName doubled name = true →
      (f.afterElement || f.noPseudoElements) = false → f.afterSlotted = false →
      t.enter .pseudoElement f = .ok s → PseudoAt f doubled t s
  | pseudoClass {name s} : t.token = .function name → isElementName doubled name = false →
      t.enter .pseudoClass f = .ok s → PseudoAt f doubled t s

/-- What is read as a simple selector in front of `r`. -/
inductive SimpleAt (f : Flags) (items : List Item) : Simple → List Item → Prop
  | id {t r name} : dropComments items = t :: r → t.token = .idHash name → f.afterAny = false →
      SimpleAt f items { components := [.id name] } r
  | className {t u r r' name} : dropComments items = t :: r → t.token = .delim '.' →
      f.afterAny = false → dropComments r = u :: r' → u.token = .ident name →
      SimpleAt f items { components := [.className name] } r'
  | brackets {t r s} : dropComments items = t :: r → t.token = .squareOpen →
      f.afterAny = false → t.enter .attribute f = .ok s → SimpleAt f items s r
  | nesting {t r} : dropComments items = t :: r → t.token = .delim '&' →
      SimpleAt f items { components := [.nesting] } r
  | oneColon {t u r r' s} : dropComments items = t :: r → t.token = .colon →
      dropComments r = u :: r' → u.token ≠ .colon → PseudoAt f false u s →
      SimpleAt f items s r'
  | twoColons {t u v r r' r'' s} : dropComments items = t :: r → t.token = .colon →
      dropComments r = u :: r' → u.token = .colon → dropComments r' = v :: r'' →
      PseudoAt f true v s → SimpleAt f items s r''

theorem enterGroup_eq_ok {entry : Entry} {f : Flags} {t : Item} {r : List Item} {s : Simple} :
    enterGroup entry f t r = .ok s ↔ t.enter entry f = .ok s := by
  unfold enterGroup
  cases t.enter entry f with
  | error => constructor <;> rintro ⟨⟩
  | ok s' => exact ⟨fun h => h, fun h => h⟩

theorem readPseudo_eq_ok {f : Flags} {doubled : Bool} {start items r : List Item} {t : Item}
    {s : Simple} :
    readPseudo f doubled start t items = .ok (s, r) ↔ r = items ∧ PseudoAt f doubled t s := by
  constructor
  · intro h
    unfold readPseudo at h
    dsimp only at h
    split at h
    · rename_i name htoken
      split_ifs at h with helement hbarred hslotted
      · cases h
      · cases h
      · cases h
        exact ⟨rfl, .plainElement htoken helement (by simpa using hbarred) (by simpa using hslotted)⟩
      · split at h
        · rename_i c hclass
          cases h
          exact ⟨rfl, .plainClass htoken (Bool.not_eq_true _ ▸ helement) hclass⟩
        · cases h
    · rename_i name htoken
      split_ifs at h with helement hbarred hslotted
      · cases h
      · obtain ⟨e, -, h⟩ := exists_of_bind_eq_ok h
        cases h
      · obtain ⟨e, henter, h⟩ := exists_of_bind_eq_ok h
        cases h
        exact ⟨rfl, .element htoken helement (by simpa using hbarred) (by simpa using hslotted)
          (enterGroup_eq_ok.1 henter)⟩
      · obtain ⟨e, henter, h⟩ := exists_of_bind_eq_ok h
        cases h
        exact ⟨rfl, .pseudoClass htoken (Bool.not_eq_true _ ▸ helement) (enterGroup_eq_ok.1 henter)⟩
    · cases h
  · rintro ⟨rfl, h⟩
    unfold readPseudo
    dsimp only
    cases h with
    | plainElement htoken helement hbarred hslotted =>
      simp only [isElementName] at helement
      simp only [htoken, helement, hbarred, hslotted]
      rfl
    | plainClass htoken helement hclass =>
      simp only [isElementName] at helement
      simp only [htoken, helement, hclass]
      rfl
    | element htoken helement hbarred hslotted henter =>
      simp only [isElementName] at helement
      simp only [htoken, helement, hbarred, enterGroup_eq_ok.2 henter]
      simp only [hslotted]
      rfl
    | pseudoClass htoken helement henter =>
      simp only [isElementName] at helement
      simp only [htoken, helement, enterGroup_eq_ok.2 henter]
      rfl

theorem readClassName_eq_ok {items r : List Item} {s : Simple} :
    readClassName items = .ok (s, r) ↔ ∃ u name, dropComments items = u :: r ∧
      u.token = .ident name ∧ s = { components := [.className name] } := by
  rw [readClassName]
  constructor
  · intro h
    split at h
    · cases h
    · rename_i u r' hitems
      split at h
      · rename_i name hu
        cases h
        exact ⟨u, name, hitems, hu, rfl⟩
      · cases h
  · rintro ⟨u, name, hitems, hu, rfl⟩
    simp [hitems, hu]

theorem readColon_eq_ok {f : Flags} {items r : List Item} {s : Simple} :
    readColon f items = .ok (s, r) ↔
      (∃ u, dropComments items = u :: r ∧ u.token ≠ .colon ∧ PseudoAt f false u s) ∨
        ∃ u r' v, dropComments items = u :: r' ∧ u.token = .colon ∧ dropComments r' = v :: r ∧
          PseudoAt f true v s := by
  rw [readColon]
  constructor
  · intro h
    split at h
    · cases h
    · rename_i u r' hu
      split at h
      · rename_i hcolon
        split at h
        · cases h
        · rename_i v r'' hv
          obtain ⟨rfl, hpseudo⟩ := readPseudo_eq_ok.1 h
          exact .inr ⟨u, r', v, hu, hcolon, hv, hpseudo⟩
      · rename_i hcolon
        obtain ⟨rfl, hpseudo⟩ := readPseudo_eq_ok.1 h
        exact .inl ⟨u, hu, hcolon, hpseudo⟩
  · rintro (⟨u, hu, hcolon, hpseudo⟩ | ⟨u, r', v, hu, hcolon, hv, hpseudo⟩)
    · simp [hu, hcolon, readPseudo_eq_ok.2 ⟨rfl, hpseudo⟩]
    · simp [hu, hcolon, hv, readPseudo_eq_ok.2 ⟨rfl, hpseudo⟩]

theorem readSimple?_eq_ok {f : Flags} {items r : List Item} {s : Simple} :
    readSimple? f items = some (.ok (s, r)) ↔ SimpleAt f items s r := by
  constructor
  · intro h
    unfold readSimple? at h
    split at h
    · cases h
    · rename_i t r' hitems
      dsimp only at h
      split at h
      · rename_i name htoken
        split_ifs at h with hafter
        · cases h
        · cases h
          exact .id hitems htoken (by simpa using hafter)
      · rename_i htoken
        split_ifs at h with hafter
        · cases h
        · rw [Option.some.injEq] at h
          obtain ⟨u, name, hu, hname, rfl⟩ := readClassName_eq_ok.1 h
          exact .className hitems htoken (by simpa using hafter) hu hname
      · rename_i htoken
        split_ifs at h with hafter
        · cases h
        · rw [Option.some.injEq] at h
          obtain ⟨e, henter, h⟩ := exists_of_map_eq_ok h
          cases h
          exact .brackets hitems htoken (by simpa using hafter) (enterGroup_eq_ok.1 henter)
      · rename_i htoken
        rw [Option.some.injEq] at h
        rcases readColon_eq_ok.1 h with
          ⟨u, hu, hcolon, hpseudo⟩ | ⟨u, r'', v, hu, hcolon, hv, hpseudo⟩
        · exact .oneColon hitems htoken hu hcolon hpseudo
        · exact .twoColons hitems htoken hu hcolon hv hpseudo
      · rename_i htoken
        cases h
        exact .nesting hitems htoken
      · cases h
  · intro h
    unfold readSimple?
    cases h with
    | id hitems htoken hafter => simp [hitems, htoken, hafter]
    | className hitems htoken hafter hname hu =>
      simp [hitems, htoken, hafter, readClassName_eq_ok.2 ⟨_, _, hname, hu, rfl⟩]
    | brackets hitems htoken hafter henter =>
      simp [hitems, htoken, hafter, enterGroup_eq_ok.2 henter, Except.map]
    | nesting hitems htoken => simp [hitems, htoken]
    | oneColon hitems htoken hu hcolon hpseudo =>
      simp [hitems, htoken, readColon_eq_ok.2 (.inl ⟨_, hu, hcolon, hpseudo⟩)]
    | twoColons hitems htoken hu hcolon hv hpseudo =>
      simp [hitems, htoken, readColon_eq_ok.2 (.inr ⟨_, _, _, hu, hcolon, hv, hpseudo⟩)]

/-- A simple selector is read in front of more items. -/
theorem SimpleAt.append {f : Flags} {items r : List Item} {s : Simple} (h : SimpleAt f items s r)
    (rest : List Item) : SimpleAt f (items ++ rest) s (r ++ rest) := by
  cases h with
  | id hitems htoken hafter => exact .id (dropComments_append hitems rest) htoken hafter
  | className hitems htoken hafter hname hu =>
    exact .className (dropComments_append hitems rest) htoken hafter
      (dropComments_append hname rest) hu
  | brackets hitems htoken hafter henter =>
    exact .brackets (dropComments_append hitems rest) htoken hafter henter
  | nesting hitems htoken => exact .nesting (dropComments_append hitems rest) htoken
  | oneColon hitems htoken hu hcolon hpseudo =>
    exact .oneColon (dropComments_append hitems rest) htoken (dropComments_append hu rest) hcolon
      hpseudo
  | twoColons hitems htoken hu hcolon hv hpseudo =>
    exact .twoColons (dropComments_append hitems rest) htoken (dropComments_append hu rest) hcolon
      (dropComments_append hv rest) hpseudo

theorem mem_of_dropComments {items r : List Item} {t u : Item} (h : dropComments items = t :: r)
    (ht : t.token ≠ .comma) (hu : u ∈ items) : u ∈ r ∨ u.token ≠ .comma := by
  rw [← List.takeWhile_append_dropWhile (p := Item.isComment) (l := items), List.mem_append] at hu
  rcases hu with hu | hu
  · have hcomment : u.isComment = true := List.mem_takeWhile_imp hu
    right
    intro hcomma
    simp [Item.isComment, hcomma, Token.isComment] at hcomment
  · rw [dropComments] at h
    rw [h, List.mem_cons] at hu
    rcases hu with rfl | hu
    · exact .inr ht
    · exact .inl hu

theorem PseudoAt.token_ne_comma {f : Flags} {doubled : Bool} {t : Item} {s : Simple}
    (h : PseudoAt f doubled t s) : t.token ≠ .comma := by
  cases h <;> rename_i htoken _ <;> simp_all

/-- No comma is part of a simple selector, except in brackets. -/
theorem SimpleAt.token_ne_comma {f : Flags} {items r : List Item} {s : Simple}
    (h : SimpleAt f items s r) {u : Item} (hu : u ∈ items) : u ∈ r ∨ u.token ≠ .comma := by
  cases h with
  | id hitems htoken | brackets hitems htoken | nesting hitems htoken =>
    exact mem_of_dropComments hitems (by simp [htoken]) hu
  | className hitems htoken _ hname hname' =>
    refine (mem_of_dropComments hitems (by simp [htoken]) hu).elim (fun hu => ?_) .inr
    exact mem_of_dropComments hname (by simp [hname']) hu
  | oneColon hitems htoken hname _ hpseudo =>
    refine (mem_of_dropComments hitems (by simp [htoken]) hu).elim (fun hu => ?_) .inr
    exact mem_of_dropComments hname hpseudo.token_ne_comma hu
  | twoColons hitems htoken hcolon hcolon' hname hpseudo =>
    refine (mem_of_dropComments hitems (by simp [htoken]) hu).elim (fun hu => ?_) .inr
    refine (mem_of_dropComments hcolon (by simp [hcolon']) hu).elim (fun hu => ?_) .inr
    exact mem_of_dropComments hname hpseudo.token_ne_comma hu

end MailCss
