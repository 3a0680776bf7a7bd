import MailCss.Proofs.Reading.Chunks
import MailCss.Proofs.Reading.Sources
import MailCss.Proofs.Stylesheet.Plain
import MailCss.Proofs.Text.Trim

/-!
# Reading plain heads

What plain texts in front of a semicolon or a block leave pending: a prelude with the same text, or
an at-rule with its name and parameters; and that a plain comment is read as itself.

Main statements: `opens_selector`, `opens_declaration`, `opens_atRule` and `readsAs_comment`.
-/

namespace MailCss

open Text (Location Mark)
open Css
open Css.TokenTree (sourceAll)

/-! ## Preludes -/

/-- The lexeme that begins a prelude. -/
def Css.Lexeme.BeginsPrelude (x : Lexeme) : Prop :=
  betweenNodes? x.token = none ∧ ∀ name, x.token ≠ .atKeyword name

theorem Css.Lexeme.beginsPrelude_of_isSolid {x : Lexeme} (h : x.token.isSolid = true) :
    x.BeginsPrelude := by
  obtain ⟨token, source⟩ := x
  cases token <;> first | (cases h; done) | exact ⟨rfl, fun _ hname => by cases hname⟩

theorem scanPunctuation_beginsPrelude (c : Char) (r : List Char) :
    (scanPunctuation c r).BeginsPrelude := by
  have hsingle : betweenNodes? (single c) = none ∧ ∀ name, single c ≠ .atKeyword name := by
    unfold single
    repeat' split
    all_goals exact ⟨rfl, by rintro name ⟨⟩⟩
  rcases scanPunctuation_cases c r with ⟨t, ht, hread⟩ | hread <;> rw [hread]
  · have hmatchers : ∀ t ∈ matchers, t.isSolid = true := by decide
    exact Lexeme.beginsPrelude_of_isSolid (hmatchers t ht)
  · exact hsingle

/-- The first lexeme of a text that begins a prelude. -/
theorem scan_beginsPrelude {a : Char} {s : List Char} (hspace : isSpace a = false)
    (hcomment : ¬ ['/', '*'] <:+: a :: s) (h : BeginsPrelude (a :: s)) :
    (scan a s).BeginsPrelude := by
  apply scan_elim_of_solid (p := Lexeme.BeginsPrelude)
  case solid => intro x hsolid; exact Lexeme.beginsPrelude_of_isSolid hsolid
  case space =>
    intro ha
    rw [ha] at hspace
    cases hspace
  case comment =>
    rintro rfl hhead
    obtain ⟨t, rfl⟩ := List.head?_eq_some_iff.1 hhead
    exact absurd ⟨[], t, rfl⟩ hcomment
  case at_sign =>
    rintro rfl
    exact absurd rfl h.noAt
  case commentClose => intro htake; exact absurd htake h.noClose
  case commentOpen => intro htake; exact absurd htake h.noOpen
  case punctuation => exact scanPunctuation_beginsPrelude a s

/-- Trees that make a prelude are read as one. -/
theorem readTrees_prelude {ts : List TokenTree} (h : IsPrelude ts) (hne : ts ≠ []) (m : Mark)
    (us : List TokenTree) :
    readTrees m .nothing (ts ++ us) =
      readTrees (m.advance (sourceAll ts)) (.prelude m.location ts.reverse) us := by
  obtain ⟨t, ts, rfl⟩ := List.exists_cons_of_ne_nil hne
  obtain ⟨hbetween, hat⟩ := h.first t rfl
  have htake : Pending.take m.location t .nothing = .prelude m.location [t] := by
    simp only [Pending.take]
  rw [List.cons_append, readTrees,
    readTree_take m (h.inside t List.mem_cons_self) (fun _ => hbetween), htake]
  simp only
  rw [readTrees_append_of_pending (fun u hu => h.inside u (List.mem_cons_of_mem _ hu)) _ (by simp),
    Pending.takeAll, sourceAll, Mark.advance_append, List.reverse_cons]
  rfl

/-- The lexemes that are leaves of a prelude. -/
def Css.Lexeme.IsLeaf (x : Lexeme) : Prop :=
  x.token.closer? = none ∧ x.token.isCloser = false ∧ x.token ≠ .semicolon

theorem nested_map_leaf {xs : List Lexeme} (h : ∀ x ∈ xs, x.IsLeaf) : Nested xs (xs.map .leaf) := by
  induction xs with
  | nil => exact .nil
  | cons x xs ih =>
    have hx := h x List.mem_cons_self
    exact .leaf hx.1 hx.2.1 (ih fun y hy => h y (List.mem_cons_of_mem _ hy))

/-- The text of a prelude of leaves. -/
theorem preludeText_map_leaf (xs : List Lexeme) :
    preludeText (xs.map .leaf) = xs.flatMap Lexeme.source := by
  induction xs with
  | nil => rfl
  | cons x xs ih =>
    cases xs with
    | nil => simp [preludeText, TokenTree.head]
    | cons y ys =>
      rw [List.map_cons, List.map_cons, preludeText, ← List.map_cons, ih]
      · rfl
      · simp

/-- The lexemes of a calm text without parentheses are leaves. -/
theorem Css.Lexeme.Calm.isLeaf {x : Lexeme} (hx : x.Calm)
    (hparen : ∀ c ∈ x.source, c ≠ '(' ∧ c ≠ ')') : x.IsLeaf := by
  cases hx with
  | space => exact ⟨rfl, rfl, by rintro ⟨⟩⟩
  | word hword =>
    refine ⟨Token.closer?_of_isInline hword.inline, Token.isCloser_of_isInline hword.inline, ?_⟩
    intro hsemi
    have hinline := hword.inline
    rw [hsemi] at hinline
    cases hinline
  | opener => exact absurd rfl (hparen '(' (by simp)).1
  | closer => exact absurd rfl (hparen ')' (by simp)).2
  | url => exact absurd rfl (hparen '(' (by simp)).1

theorem mem_of_mem_lexemes {s : List Char} {x : Lexeme} (hx : x ∈ lexemes s) {c : Char}
    (hc : c ∈ x.source) : c ∈ s := by
  rw [← lexemes_source s]
  exact List.mem_flatMap.2 ⟨x, hx, hc⟩

/-- A calm text without parentheses: its lexemes are leaves, and the same whatever follows. -/
theorem lexemes_of_noParen {s : List Char} (hcalm : Calm s)
    (hparen : ∀ c ∈ s, c ≠ '(' ∧ c ≠ ')') :
    (∀ x ∈ lexemes s, x.IsLeaf) ∧ ∀ r, Seam s r → lexemes (s ++ r) = lexemes s ++ lexemes r := by
  have hclose : closesAll 0 s = true := by
    have happend := closesAll_append hparen 0 []
    rw [List.append_nil] at happend
    rw [happend]
    rfl
  have hcount : ∀ x ∈ lexemes s, x.source.count '(' ≤ 1 := by
    intro x hx
    rw [List.count_eq_zero.2 fun hc => (hparen _ (mem_of_mem_lexemes hx hc)).1 rfl]
    exact Nat.zero_le 1
  -- Without parentheses, there is nothing to match and no url.
  obtain ⟨hall, -, hrest⟩ := lexemes_calm hcalm hclose hcount
  refine ⟨?_, hrest⟩
  intro x hx
  exact (hall x hx).isLeaf fun c hc => hparen c (mem_of_mem_lexemes hx hc)

/-- A text whose lexemes are leaves, the first of which begins a prelude, is a prelude. -/
theorem opens_prelude {s : List Char} {e : Char}
    (firm : ∀ r, lexemes (s ++ e :: r) = lexemes s ++ lexemes (e :: r))
    (hleaf : ∀ x ∈ lexemes s, x.IsLeaf) (hfirst : ∃ x ∈ (lexemes s).head?, x.BeginsPrelude) :
    Opens s e fun l => .prelude l ((lexemes s).map .leaf).reverse := by
  refine ⟨firm, (lexemes s).map .leaf, nested_map_leaf hleaf, ?_⟩
  obtain ⟨x, hx, hbegins⟩ := hfirst
  obtain ⟨xs, hxs⟩ := List.head?_eq_some_iff.1 hx
  have hprelude : IsPrelude ((lexemes s).map .leaf) := by
    constructor
    · intro t ht
      obtain ⟨y, hy, rfl⟩ := List.mem_map.1 ht
      simpa [TokenTree.endsNode] using (hleaf y hy).2.2
    · rw [hxs]
      rintro t ⟨⟩
      exact ⟨by simp [TokenTree.isBetween, hbegins.1], hbegins.2⟩
  intro m us
  have hsource := (nested_map_leaf hleaf).sourceAll_eq
  rw [lexemes_source] at hsource
  rw [readTrees_prelude hprelude (by rw [hxs]; simp), hsource]

theorem isSpace_eq_false {c : Char} (h : Text.isBlank c = false) : isSpace c = false := by
  rw [← Bool.not_eq_true]
  intro hspace
  rcases isSpace_cases hspace with rfl | rfl | rfl | rfl | rfl <;> revert h <;> decide

/-- A trimmed text neither begins nor ends with white space. -/
theorem isSpace_of_trim_eq {s : List Char} (h : Text.trim s = s) :
    (∀ c ∈ s.head?, isSpace c = false) ∧ ∀ c ∈ s.getLast?, isSpace c = false := by
  obtain ⟨hhead, hlast⟩ := Text.trim_eq_self_iff.1 h
  exact ⟨fun c hc => isSpace_eq_false (hhead c hc), fun c hc => isSpace_eq_false (hlast c hc)⟩

/-- A space behind a text that does not end with one. -/
theorem lexemes_append_space {s r : List Char}
    (hrest : ∀ r, Seam s r → lexemes (s ++ r) = lexemes s ++ lexemes r)
    (hlast : ∀ b ∈ s.getLast?, isSpace b = false) (hr : ∀ c ∈ r.head?, isSpace c = false) :
    lexemes (s ++ ' ' :: r) = lexemes s ++ ⟨.whitespace " ", [' ']⟩ :: lexemes r := by
  have hseam : Seam s (' ' :: r) := by
    rintro c ⟨⟩
    exact .inr ⟨rfl, hlast⟩
  rw [hrest _ hseam, lexemes_space hr]

/-- Two characters that are neither in one text nor in the other, nor is one of them between. -/
theorem not_isInfix_append {x y c : Char} {s t : List Char} (hs : ¬ [x, y] <:+: s)
    (ht : ¬ [x, y] <:+: t) (hx : c ≠ x) (hy : c ≠ y) : ¬ [x, y] <:+: s ++ c :: t := by
  induction s with
  | nil =>
    rw [List.nil_append, List.infix_cons_iff]
    rintro (hfront | hback)
    · rw [List.cons_prefix_cons] at hfront
      exact hx hfront.1.symm
    · exact ht hback
  | cons a s ih =>
    rw [List.infix_cons_iff, not_or] at hs
    rw [List.cons_append, List.infix_cons_iff]
    rintro (hfront | hback)
    · rw [List.cons_prefix_cons] at hfront
      rcases s with _ | ⟨b, s⟩
      · rw [List.nil_append, List.cons_prefix_cons] at hfront
        exact hy hfront.2.1.symm
      · rw [List.cons_append, List.cons_prefix_cons] at hfront
        exact hs.1 (by simp [hfront.1, hfront.2.1])
    · exact ih hs.2 hback

section Prelude

variable {s : List Char}

/-- A selector in front of a block. -/
theorem opens_selector (h : PlainText s) (hbegins : BeginsPrelude s) (hne : s ≠ []) :
    ∃ taken, preludeText taken = s ++ [' '] ∧
      Opens (s ++ [' ']) '\x7b' fun l => .prelude l taken.reverse := by
  obtain ⟨hhead, hlast⟩ := isSpace_of_trim_eq h.trimmed
  obtain ⟨hleaf, hrest⟩ := lexemes_of_noParen h.calm h.noParen
  have hspace (r : List Char) (hr : ∀ c ∈ r.head?, isSpace c = false) :=
    lexemes_append_space hrest hlast hr
  have hself : lexemes (s ++ [' ']) = lexemes s ++ [⟨.whitespace " ", [' ']⟩] :=
    hspace [] (by rintro c ⟨⟩)
  refine ⟨(lexemes (s ++ [' '])).map .leaf, ?_, opens_prelude ?_ ?_ ?_⟩
  · rw [preludeText_map_leaf, lexemes_source]
  · intro r
    rw [List.append_assoc, List.singleton_append, hspace _ (by rintro c ⟨⟩; rfl), hself,
      List.append_assoc]
    rfl
  · intro x hx
    rw [hself] at hx
    rcases List.mem_append.1 hx with hx | hx
    · exact hleaf x hx
    · rw [List.mem_singleton.1 hx]
      exact ⟨rfl, rfl, by rintro ⟨⟩⟩
  · obtain ⟨a, s, rfl⟩ := List.exists_cons_of_ne_nil hne
    rw [hself, lexemes_cons]
    exact ⟨_, rfl, scan_beginsPrelude (hhead a rfl) h.calm.comment hbegins⟩

/-- A property and a value in front of a semicolon. -/
theorem opens_declaration {v : List Char} (h : PlainText s) (hbegins : BeginsPrelude s)
    (hne : s ≠ []) (hv : PlainText v) :
    ∃ taken, preludeText taken = s ++ ':' :: ' ' :: v ∧
      Opens (s ++ ':' :: ' ' :: v) ';' fun l => .prelude l taken.reverse := by
  obtain ⟨hhead, -⟩ := isSpace_of_trim_eq h.trimmed
  have hcomment : ¬ ['/', '*'] <:+: s ++ ':' :: ' ' :: v := by
    refine not_isInfix_append h.calm.comment ?_ (by decide) (by decide)
    exact not_isInfix_append (s := []) (by decide) hv.calm.comment (by decide) (by decide)
  have hcalm : Calm (s ++ ':' :: ' ' :: v) := by
    refine ⟨?_, hcomment⟩
    intro c hc
    simp only [List.mem_append, List.mem_cons] at hc
    rcases hc with hc | rfl | rfl | hc
    · exact h.calm.chars c hc
    · rfl
    · rfl
    · exact hv.calm.chars c hc
  have hparen : ∀ c ∈ s ++ ':' :: ' ' :: v, c ≠ '(' ∧ c ≠ ')' := by
    intro c hc
    simp only [List.mem_append, List.mem_cons] at hc
    rcases hc with hc | rfl | rfl | hc
    · exact h.noParen c hc
    · decide
    · decide
    · exact hv.noParen c hc
  -- The whole of it is one calm text, whichever lexemes the colon is read into.
  obtain ⟨hleaf, hrest⟩ := lexemes_of_noParen hcalm hparen
  refine ⟨(lexemes (s ++ ':' :: ' ' :: v)).map .leaf, ?_, opens_prelude ?_ hleaf ?_⟩
  · rw [preludeText_map_leaf, lexemes_source]
  · intro r
    apply hrest
    rintro c ⟨⟩
    exact .inl rfl
  · obtain ⟨a, s, rfl⟩ := List.exists_cons_of_ne_nil hne
    have hcolon (w : List Char) (hw : ':' ∉ w) : ∀ c ∈ (':' :: ' ' :: v).head?, c ∉ w := by
      rintro c ⟨⟩
      exact hw
    have hwhole : BeginsPrelude (a :: (s ++ ':' :: ' ' :: v)) := by
      constructor
      · exact hbegins.noAt
      · exact fun h => hbegins.noOpen
          ((take_append_iff (hcolon ['<', '!', '-', '-'] (by decide)) (a :: s)).1 h)
      · exact fun h => hbegins.noClose
          ((take_append_iff (hcolon ['-', '-', '>'] (by decide)) (a :: s)).1 h)
    rw [List.cons_append] at hcomment ⊢
    rw [lexemes_cons]
    exact ⟨_, rfl, scan_beginsPrelude (hhead a rfl) hcomment hwhole⟩

end Prelude

/-- A property and a value are read back from what is written of them. -/
theorem declaration?_of_plain {s v : List Char} (hs : Text.trim s = s) (hne : s ≠ [])
    (hcolon : ':' ∉ s) (hv : Text.trim v = v) :
    declaration? (Text.trim (s ++ ':' :: ' ' :: v)) =
      some (.declaration (String.ofList s) (String.ofList v)) := by
  have hhead (t : List Char) : ∀ c ∈ (s ++ t).head?, Text.isBlank c = false := by
    obtain ⟨a, u, rfl⟩ := List.exists_cons_of_ne_nil hne
    rintro c ⟨⟩
    exact (Text.trim_eq_self_iff.1 hs).1 a rfl
  -- Without a value, the space behind the colon is trimmed away.
  obtain ⟨u, htext, hu⟩ : ∃ u, Text.trim (s ++ ':' :: ' ' :: v) = s ++ ':' :: u ∧
      Text.trim u = v := by
    by_cases hempty : v = []
    · subst hempty
      have hspace : Text.trim (s ++ [':', ' ']) = Text.trim (s ++ [':']) := by
        simpa using Text.trim_append_space (s ++ [':'])
      refine ⟨[], ?_, rfl⟩
      rw [hspace]
      refine Text.trim_eq_self (hhead _) ?_
      rw [List.getLast?_concat]
      rintro c ⟨⟩
      rfl
    · refine ⟨' ' :: v, Text.trim_eq_self (hhead _) ?_, ?_⟩
      · intro c hc
        obtain ⟨a, u, rfl⟩ := List.exists_cons_of_ne_nil hempty
        rw [List.getLast?_append, List.getLast?_cons_cons, List.getLast?_cons_cons] at hc
        apply (Text.trim_eq_self_iff.1 hv).2
        cases hlast : (a :: u).getLast? with
        | none => simp at hlast
        | some b =>
          rw [hlast] at hc
          exact hc
      · rw [Text.trim_cons_space, hv]
  have hcut : Sequence.cutAt? ':' (s ++ ':' :: u) = some (s, u) :=
    Sequence.cutAt?_eq_some_iff.2 ⟨rfl, hcolon⟩
  simp only [declaration?, htext, hcut, hs, hne, if_false, hu]

/-! ## At-rules -/

theorem spanName_of_inName {s : List Char} (h : ∀ c ∈ s, inName c = true) :
    spanName s = (s, []) := by
  induction s with
  | nil => rfl
  | cons c s ih =>
    have hc := h c List.mem_cons_self
    have hslash : c ≠ '\\' := by
      rintro rfl
      revert hc
      decide
    rw [spanName_cons hslash, if_pos hc, ih fun b hb => h b (List.mem_cons_of_mem _ hb)]

theorem PlainName.inName {s : List Char} (h : PlainName s) {c : Char} (hc : c ∈ s) :
    Css.inName c = true := by
  rcases h.chars c hc with halnum | rfl | rfl
  · simp only [Char.isAlphanum, Bool.or_eq_true] at halnum
    rcases halnum with halpha | hdigit
    · simp [Css.inName, startsName, halpha]
    · simp [Css.inName, hdigit]
  · rfl
  · rfl

/-- An at sign and a plain name are one lexeme. -/
theorem lexemes_atName {s r : List Char} (h : PlainName s) (hr : Stops r) :
    lexemes ('@' :: (s ++ r)) = ⟨.atKeyword (String.ofList s), '@' :: s⟩ :: lexemes r := by
  have hslash : '\\' ∉ s := by
    intro hmem
    have hname := h.inName hmem
    revert hname
    decide
  have hstarts : startsIdent s = true := by
    obtain ⟨a, ha, halpha⟩ := h.head
    obtain ⟨t, rfl⟩ := List.head?_eq_some_iff.1 ha
    have hminus : a ≠ '-' := by
      rintro rfl
      revert halpha
      decide
    have hback : a ≠ '\\' := fun hback => hslash (hback ▸ List.mem_cons_self)
    rw [startsIdent_cons hminus hback]
    simp [startsName, halpha]
  have hmeaning : unescape s = s := by
    apply unescape_plain
    intro c hc
    refine ⟨fun hback => hslash (hback ▸ hc), ?_⟩
    rintro rfl
    rcases h.chars _ hc with hnul | hnul | hnul <;> revert hnul <;> decide
  -- The name reaches to its end, and what it means is what it is.
  have hscan : scan '@' (s ++ r) = ⟨.atKeyword (String.ofList s), '@' :: s⟩ := by
    have hat : scan '@' (s ++ r) = scanAt (s ++ r) := rfl
    rw [hat, scanAt_stop hr s hslash]
    simp only [scanAt, hstarts, if_true, spanName_of_inName fun c hc => h.inName hc, hmeaning]
  exact lexemes_eq_cons hscan rfl

/-- A text behind the name of an at-rule that makes these parameters. -/
structure MakesParams (q params : List Char) : Prop where
  stops : Stops q
  firm : ∀ r, Seam q r → lexemes (q ++ r) = lexemes q ++ lexemes r
  last : ∀ b ∈ q.getLast?, isSpace b = false
  trees : ∃ ts, Nested (lexemes q) ts ∧ (∀ t ∈ ts, t.endsNode = false) ∧
    Text.trim (paramsFrom false ts) = params

theorem makesParams_nil : MakesParams [] [] where
  stops := by rintro c ⟨⟩
  firm _ _ := rfl
  last := by rintro c ⟨⟩
  trees := ⟨[], .nil, by rintro t ⟨⟩, rfl⟩

/-- Plain parameters behind a space. -/
theorem makesParams_cons {s : List Char} (h : PlainParams s) (hne : s ≠ []) :
    MakesParams (' ' :: s) s := by
  obtain ⟨hhead, hlast⟩ := isSpace_of_trim_eq h.trimmed
  obtain ⟨hcalm, hbrackets, hrest⟩ := lexemes_calm h.calm h.closed h.oneParen
  obtain ⟨ts, hts⟩ := nested_of_brackets hbrackets
  have hfront (r : List Char) :
      lexemes (' ' :: (s ++ r)) = ⟨.whitespace " ", [' ']⟩ :: lexemes (s ++ r) := by
    refine lexemes_space ?_
    obtain ⟨a, t, rfl⟩ := List.exists_cons_of_ne_nil hne
    rintro c ⟨⟩
    exact hhead a rfl
  have hself := hfront []
  rw [List.append_nil] at hself
  constructor
  · rintro c ⟨⟩
    exact .inl rfl
  · intro r hr
    rw [List.cons_append, hfront, hself, hrest r (Seam.of_append (s := [' ']) hr)]
    rfl
  · intro b hb
    obtain ⟨a, t, rfl⟩ := List.exists_cons_of_ne_nil hne
    rw [List.getLast?_cons_cons] at hb
    exact hlast b hb
  · have hall : ∀ x ∈ lexemes s, x.Calm ∧ x.source ≠ [] := by
      intro x hx
      exact ⟨hcalm x hx, (isRead_of_mem_lexemes hx).source_ne_nil⟩
    refine ⟨.leaf ⟨.whitespace " ", [' ']⟩ :: ts, ?_, ?_, ?_⟩
    · rw [hself]
      exact .leaf rfl rfl hts
    · intro t ht
      rcases List.mem_cons.1 ht with rfl | ht
      · rfl
      · exact endsNode_of_nested hts hcalm t ht
    · -- The space in front is trimmed away, and that it is there changes nothing behind it.
      have hspaced : singleSpaced 0 true s = true := by
        obtain ⟨a, t, rfl⟩ := List.exists_cons_of_ne_nil hne
        have hspaced := h.spaced
        simp only [singleSpaced, hhead a rfl] at hspaced ⊢
        exact hspaced
      have hparams := paramsFrom_of_nested hts hall true (by rwa [lexemes_source])
      rw [lexemes_source] at hparams
      have hstep : paramsFrom false (.leaf ⟨.whitespace " ", [' ']⟩ :: ts) =
          ' ' :: paramsFrom true ts := rfl
      rw [hstep, hparams, Text.trim_cons_space, h.trimmed]

/-- White space at the end of parameters is at most a space. -/
theorem paramsFrom_append_space (spaced : Bool) (ts : List TokenTree) :
    ∃ w, (∀ c ∈ w, Text.isBlank c = true) ∧
      paramsFrom spaced (ts ++ [.leaf ⟨.whitespace " ", [' ']⟩]) = paramsFrom spaced ts ++ w := by
  induction ts generalizing spaced with
  | nil =>
    cases spaced with
    | false => exact ⟨[' '], List.forall_mem_singleton.2 rfl, rfl⟩
    | true => exact ⟨[], by simp, rfl⟩
  | cons t ts ih =>
    rw [List.cons_append, paramsFrom, paramsFrom]
    split
    · exact ih spaced
    · split
      · exact ih true
      · obtain ⟨w, hw, htext⟩ := ih true
        exact ⟨w, hw, by rw [htext, List.cons_append]⟩
    · obtain ⟨w, hw, htext⟩ := ih (t.source.getLast? = some ' ')
      exact ⟨w, hw, by simp only [htext, List.append_assoc]⟩

/-- An at-keyword, and behind it trees that end nothing. -/
theorem opens_at {s q : List Char} {e : Char} {ts : List TokenTree} (h : PlainName s)
    (hq : Stops q) (hqe : ∀ r, Stops (q ++ e :: r))
    (firm : ∀ r, lexemes (q ++ e :: r) = lexemes q ++ lexemes (e :: r))
    (hts : Nested (lexemes q) ts) (hends : ∀ t ∈ ts, t.endsNode = false) :
    Opens ('@' :: (s ++ q)) e fun l => .atRule l (String.ofList s) ts.reverse := by
  constructor
  · intro r
    rw [List.cons_append, List.append_assoc, lexemes_atName h (hqe r), lexemes_atName h hq, firm r]
    rfl
  · refine ⟨.leaf ⟨.atKeyword (String.ofList s), '@' :: s⟩ :: ts, ?_, ?_⟩
    · rw [lexemes_atName h hq]
      exact .leaf rfl rfl hts
    · intro m us
      have hsource := hts.sourceAll_eq
      rw [lexemes_source] at hsource
      have htake : readTree m .nothing (.leaf ⟨.atKeyword (String.ofList s), '@' :: s⟩) =
          ({}, .atRule m.location (String.ofList s) []) := readTree_take m rfl fun _ => rfl
      rw [List.cons_append, readTrees, htake]
      simp only
      rw [readTrees_append_of_pending hends _ (by simp), hsource, Pending.takeAll, List.append_nil,
        ← List.cons_append, Mark.advance_append]
      rfl

/-- An at-rule in front of a semicolon. -/
theorem opens_statement {s q params : List Char} (h : PlainName s) (hq : MakesParams q params) :
    ∃ taken, paramsText taken = String.ofList params ∧
      Opens ('@' :: (s ++ q)) ';' fun l => .atRule l (String.ofList s) taken.reverse := by
  obtain ⟨ts, hts, hends, hparams⟩ := hq.trees
  refine ⟨ts, by rw [paramsText, hparams], opens_at h hq.stops ?_ ?_ hts hends⟩
  · intro r c hc
    rcases q with _ | ⟨b, q⟩
    · cases hc
      exact .inr rfl
    · exact hq.stops c hc
  · intro r
    apply hq.firm
    rintro c ⟨⟩
    exact .inl rfl

/-- An at-rule in front of a block. -/
theorem opens_atRule {s q params : List Char} (h : PlainName s) (hq : MakesParams q params) :
    ∃ taken, paramsText taken = String.ofList params ∧
      Opens ('@' :: (s ++ (q ++ [' ']))) '\x7b' fun l =>
        .atRule l (String.ofList s) taken.reverse := by
  obtain ⟨ts, hts, hends, hparams⟩ := hq.trees
  have hspace (r : List Char) (hr : ∀ c ∈ r.head?, isSpace c = false) :=
    lexemes_append_space hq.firm hq.last hr
  have hself : lexemes (q ++ [' ']) = lexemes q ++ [⟨.whitespace " ", [' ']⟩] :=
    hspace [] (by rintro c ⟨⟩)
  have hstops (r : List Char) : Stops ((q ++ [' ']) ++ r) := by
    intro c hc
    rcases q with _ | ⟨b, q⟩
    · cases hc
      exact .inl rfl
    · exact hq.stops c hc
  refine ⟨ts ++ [.leaf ⟨.whitespace " ", [' ']⟩], ?_,
    opens_at h (by simpa using hstops []) (fun r => hstops _) ?_ ?_ ?_⟩
  · obtain ⟨w, hw, htext⟩ := paramsFrom_append_space false ts
    rw [paramsText, htext, Text.trim_append_of_blank _ hw, hparams]
  · intro r
    rw [List.append_assoc, List.singleton_append, hspace _ (by rintro c ⟨⟩; rfl), hself,
      List.append_assoc]
    rfl
  · rw [hself]
    exact hts.append (.leaf rfl rfl .nil)
  · intro t ht
    rcases List.mem_append.1 ht with ht | ht
    · exact hends t ht
    · rw [List.mem_singleton.1 ht]
      rfl

/-! ## Comments -/

theorem spanComment_cons {c : Char} {r : List Char} (h : ¬ (c = '*' ∧ r.head? = some '/')) :
    spanComment (c :: r) = (c :: (spanComment r).1, (spanComment r).2) := by
  rw [spanComment]
  rintro t rfl rfl
  exact h ⟨rfl, rfl⟩

/-- A comment ends where it is closed first. -/
theorem spanComment_append {s : List Char} (h : ¬ ['*', '/'] <:+: s) (r : List Char) :
    spanComment (s ++ '*' :: '/' :: r) = (s, true) := by
  induction s with
  | nil => rfl
  | cons c s ih =>
    rw [List.infix_cons_iff, not_or] at h
    have hclose : ¬ (c = '*' ∧ (s ++ '*' :: '/' :: r).head? = some '/') := by
      rintro ⟨rfl, hhead⟩
      rcases s with _ | ⟨b, s⟩
      · cases hhead
      · cases hhead
        exact h.1 ⟨s, rfl⟩
    rw [List.cons_append, spanComment_cons hclose, ih h.2]

/-- A comment reaches to where it is closed first, and reading goes on behind that. -/
theorem lexemes_comment {s : List Char} (h : ¬ ['*', '/'] <:+: s) (r : List Char) :
    lexemes ('/' :: '*' :: (s ++ '*' :: '/' :: r)) =
      ⟨.comment (String.ofList s), '/' :: '*' :: (s ++ ['*', '/'])⟩ :: lexemes r := by
  have hscan : scan '/' ('*' :: (s ++ '*' :: '/' :: r)) =
      ⟨.comment (String.ofList s), '/' :: '*' :: (s ++ ['*', '/'])⟩ := by
    have hcomment : scan '/' ('*' :: (s ++ '*' :: '/' :: r)) =
        scanComment (s ++ '*' :: '/' :: r) := rfl
    rw [hcomment, scanComment, spanComment_append h]
    simp
  exact lexemes_eq_cons hscan (by simp)

/-- A plain comment is read as it is. -/
theorem readsAs_comment {s : List Char} (h : PlainComment s) :
    ReadsAs ('/' :: '*' :: ((' ' :: (s ++ [' '])) ++ ['*', '/'])) [.comment (String.ofList s)] := by
  have hbody : ¬ ['*', '/'] <:+: ' ' :: (s ++ [' ']) :=
    not_isInfix_append (s := []) (by decide)
      (not_isInfix_append h.noClose (by decide) (by decide) (by decide)) (by decide) (by decide)
  have hlexemes := lexemes_comment hbody
  constructor
  · intro r
    have hread := hlexemes r
    have hself := hlexemes []
    simp only [List.cons_append, List.append_assoc, List.nil_append] at hread hself ⊢
    rw [hread, hself]
    rfl
  · refine ⟨[.leaf ⟨.comment (String.ofList (' ' :: (s ++ [' ']))),
      '/' :: '*' :: ((' ' :: (s ++ [' '])) ++ ['*', '/'])⟩], ?_, ?_⟩
    · rw [hlexemes []]
      exact .leaf rfl rfl .nil
    · intro m us
      refine ⟨_, rfl, ?_⟩
      have htrim : Text.trim (' ' :: (s ++ [' '])) = s := by
        rw [Text.trim_cons_space, Text.trim_append_space, h.trimmed]
      rw [List.singleton_append, readTrees, readTree_between m rfl]
      simp only [String.toList_ofList, htrim]
      rfl

end MailCss
