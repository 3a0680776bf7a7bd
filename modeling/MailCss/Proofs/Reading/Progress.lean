import Mathlib
import MailCss.Proofs.Reading.Cursors
import MailCss.Proofs.Reading.Locations

/-!
# The loops end and read the whole text

Under any bounds that exceed the length of the text, the loops read the nodes that the trees of the
text have, and end where the text ends. A loop whose iterations go on in the text and keep an
invariant ends with what the invariant promises, within as many iterations as characters are left
(`loop_of_invariant`). The invariant of each loop says which trees of the level the cursor has
passed and which are still in front of it (`Cursor.Between`).

Main statement: `Stylesheet.parse_progress`.
-/

namespace MailCss

open Text (Location Mark)
open Css (Token TokenTree Lexeme)
open Css.TokenTree (sourceAll sourceAll_append)
open Cursor

variable {bound depth : Nat} {c d start : Cursor} {ts us head tail : List TokenTree}
  {ys : List Lexeme}

/-! ## Loops that keep an invariant -/

section Invariant

variable {α σ : Type} {turn : σ → Cursor → Option (Turn α σ)} {R : σ → Cursor → Prop}
  {Q : α → Cursor → Prop}

/-- What an iteration comes to has `R` where the loop goes on, and `Q` where it ends. -/
def Turn.Keeps (R : σ → Cursor → Prop) (Q : α → Cursor → Prop) : Turn α σ → Prop
  | .ends a c => Q a c
  | .goesOn s c => R s c

/-- A loop that keeps `R` ends with `Q`, after no more iterations than there are characters left. -/
theorem loop_of_invariant {n : Nat} {s : σ} (hgo : Advances turn)
    (hturn : ∀ s d, c.Reaches d → R s d → ∃ t, turn s d = some t ∧ t.Keeps R Q)
    (hstart : R s c) (hn : c.rest.length < n) :
    ∃ a d, loop turn n s c = some (a, d) ∧ Q a d := by
  induction n generalizing s c with
  | zero => omega
  | succ n ih =>
    obtain ⟨t, ht, hkeeps⟩ := hturn s c (.refl c) hstart
    cases t with
    | ends a d => exact ⟨a, d, by rw [loop, ht], hkeeps⟩
    | goesOn s' d =>
      have hd := hgo _ _ _ _ ht
      have hlt := hd.length_lt
      obtain ⟨a, e, he, hQ⟩ :=
        ih (fun s e he => hturn s e (hd.reaches.trans he)) hkeeps (by omega)
      exact ⟨a, e, by rw [loop, ht]; exact he, hQ⟩

end Invariant

/-- Skipping an open group takes the cursor behind it. -/
theorem skipGroup_of_enters {x : Lexeme} {closer : List Char}
    (h : c.Enters d (.group x us closer)) (hbound : d.rest.length < bound) :
    skipGroup bound d = some d.settle := by
  obtain ⟨zs, hat, hgroup⟩ := h.inGroup_eq
  have hloop : ∃ a e, loop skipTurn bound () d.inside = some (a, e) ∧
      Between d.inside us [] zs e := by
    refine loop_of_invariant
      (R := fun _ e => ∃ done ts, done ++ ts = us ∧ Between d.inside done ts zs e)
      skipTurn_advances ?_ ⟨[], us, rfl, hat.between⟩ hbound
    rintro _ e - ⟨done, ts, rfl, he⟩
    cases ts with
    | nil =>
      refine ⟨.ends () e.settle, by rw [skipTurn, next_of_at_nil he.ahead], ?_⟩
      rw [List.append_nil]
      exact he.settle
    | cons t ts =>
      obtain ⟨e', hnext, -, he'⟩ := he.next
      exact ⟨.goesOn () e', by rw [skipTurn, hnext], done ++ [t], ts, by simp, he'⟩
  obtain ⟨a, e, he, hend⟩ := hloop
  rw [skipGroup, hgroup he hend]
  rfl

/-! ## Scanning preludes and parameters -/

/-- What comes next ends a prelude: a terminator, or the end of the level. -/
inductive Cursor.Finds (c : Cursor) : Terminator → Cursor → Prop where
  | levelEnd {d : Cursor} : c.next = (none, d) → Finds c .levelEnd d
  | token {x : Lexeme} {e : Terminator} {d : Cursor} : c.next = (some x, d) →
      terminator? x.token = some e → Finds c e d

theorem preludeTurn_of_finds {e : Terminator} (h : c.Finds e d) :
    preludeTurn start () c = some (.ends (start.textTo c, e) d) := by
  cases h with
  | levelEnd hnext => rw [preludeTurn, hnext]
  | token hnext he =>
    rw [preludeTurn, hnext]
    simp only [he]

theorem paramsTurn_of_finds {e : Terminator} (params : List Char) (h : c.Finds e d) :
    paramsTurn bound params c = some (.ends (params, e) d) := by
  cases h with
  | levelEnd hnext => rw [paramsTurn, hnext]
  | token hnext he =>
    rw [paramsTurn, hnext]
    simp only [he]

/-- Scanning from `start` has come to its end: it has passed the trees `head`, and with the
terminator `e` begin the trees `tail`, if it is not the level that ends. -/
inductive Ended (start : Cursor) (head : List TokenTree) (ys : List Lexeme) :
    List TokenTree → Terminator → Cursor → Prop where
  | levelEnd {d : Cursor} : d.opened = none → Between start head [] ys d →
      Ended start head ys [] .levelEnd d
  | semicolon {d : Cursor} {x : Lexeme} {us : List TokenTree} : x.token = .semicolon →
      d.opened = none → Between start (head ++ [.leaf x]) us ys d →
      Ended start head ys (.leaf x :: us) .semicolon d
  | block {c d : Cursor} {x : Lexeme} {inner us : List TokenTree} {closer : List Char} :
      x.token = .curlyOpen → start.Reads (sourceAll head) c → c.Precedes d →
      c.Enters d (.group x inner closer) →
      Between start (head ++ [.group x inner closer]) us ys d →
      Ended start head ys (.group x inner closer :: us) .block d

theorem terminator?_eq_none {t : TokenTree} (h : c.Enters d t) (hends : t.endsNode = false) :
    terminator? t.head.token = none := by
  cases h with
  | @leaf x hopen =>
    have hsemicolon : x.token ≠ .semicolon := by simpa [TokenTree.endsNode] using hends
    rw [TokenTree.head]
    cases hx : x.token <;> simp_all [terminator?, Token.closer?]
  | @group x _ _ _ hgroup =>
    have hcurly : x.token ≠ .curlyOpen := by simpa [TokenTree.endsNode] using hends
    rw [TokenTree.head]
    cases hx : x.token <;> simp_all [terminator?, Token.closer?]

/-- What comes next while `ts` are the trees of a prelude that are still ahead: its end if there are
none, and otherwise a token that goes on with it. -/
theorem Cursor.Between.scan {done : List TokenTree} (h : Between start done (ts ++ tail) ys c)
    (hts : ∀ t ∈ ts, t.endsNode = false) (htail : ∀ t ∈ tail.head?, t.endsNode = true) :
    (ts = [] ∧ ∃ e d, c.Finds e d ∧ Ended start done ys tail e d) ∨
      ∃ t us d, ts = t :: us ∧ c.next = (some t.head, d) ∧ terminator? t.head.token = none ∧
        c.settle.Enters d t ∧ Between start (done ++ [t]) (us ++ tail) ys d := by
  cases ts with
  | cons t us =>
    obtain ⟨d, hnext, henters, hd⟩ := h.next
    have ht := terminator?_eq_none henters (hts t List.mem_cons_self)
    exact .inr ⟨t, us, d, rfl, hnext, ht, henters, hd⟩
  | nil =>
    refine .inl ⟨rfl, ?_⟩
    cases tail with
    | nil =>
      exact ⟨_, _, .levelEnd (next_of_at_nil h.ahead), .levelEnd c.opened_settle h.settle⟩
    | cons t us =>
      obtain ⟨d, hnext, henters, hd⟩ := h.next
      have hends := htail t rfl
      cases henters with
      | @leaf x _ _ hopened =>
        have hx : x.token = .semicolon := by simpa [TokenTree.endsNode] using hends
        have hfinds : terminator? x.token = some .semicolon := by rw [hx]; rfl
        exact ⟨_, d, .token hnext hfinds, .semicolon hx hopened hd⟩
      | @group x inner closer zs hgroup hread hopened hat htree =>
        have hx : x.token = .curlyOpen := by simpa [TokenTree.endsNode] using hends
        have hfinds : terminator? x.token = some .block := by rw [hx]; rfl
        have hgo : c.settle.Precedes d := precedes_of_next_eq_some (c.next_settle.trans hnext)
        exact ⟨_, d, .token hnext hfinds,
          .block hx h.passed hgo (.group hgroup hread hopened hat htree) hd⟩

/-- Trees divide into those that end no node and those from the first one that does. -/
theorem exists_endsNode (ts : List TokenTree) : ∃ head tail, ts = head ++ tail ∧
    (∀ t ∈ head, t.endsNode = false) ∧ ∀ t ∈ tail.head?, t.endsNode = true := by
  refine ⟨ts.takeWhile (!·.endsNode), ts.dropWhile (!·.endsNode),
    List.takeWhile_append_dropWhile.symm, fun t ht => ?_, fun t ht => ?_⟩
  · simpa using List.mem_takeWhile_imp ht
  · have hnot := List.head?_dropWhile_not (!·.endsNode) ts
    rw [Option.mem_def.1 ht] at hnot
    simpa using hnot

theorem preludeText_concat (done : List TokenTree) (t : TokenTree) :
    preludeText (done ++ [t]) = sourceAll done ++ t.head.source := by
  induction done with
  | nil => rfl
  | cons u done ih =>
    rw [List.cons_append, preludeText, ih, sourceAll, List.append_assoc]
    simp

/-- Scanning a prelude gives the text of the trees in front of the terminator. -/
theorem exists_scanPrelude (h : c.At (head ++ tail) ys) (hhead : ∀ t ∈ head, t.endsNode = false)
    (htail : ∀ t ∈ tail.head?, t.endsNode = true) (hbound : c.rest.length < bound) :
    ∃ e d, scanPrelude bound c = some ((preludeText head, e), d) ∧ Ended c head ys tail e d := by
  have hloop : ∃ r d, loop (preludeTurn c) bound () c = some (r, d) ∧
      r.1 = preludeText head ∧ Ended c head ys tail r.2 d := by
    refine loop_of_invariant
      (R := fun _ d => ∃ done ts, done ++ ts = head ∧ Between c done (ts ++ tail) ys d ∧
        c.textTo d = preludeText done)
      (preludeTurn_advances c) ?_ ⟨[], head, rfl, h.between, by simp [textTo, preludeText]⟩ hbound
    rintro _ d - ⟨done, ts, rfl, hd, htext⟩
    rcases hd.scan (fun t ht => hhead t (List.mem_append_right _ ht)) htail with
      ⟨rfl, e, d', hfinds, hend⟩ | ⟨t, us, d', rfl, hnext, ht, henters, hd'⟩
    · refine ⟨_, preludeTurn_of_finds hfinds, ?_⟩
      rw [List.append_nil]
      exact ⟨htext, hend⟩
    · refine ⟨.goesOn () d', ?_, done ++ [t], us, by simp, hd', ?_⟩
      · rw [preludeTurn, hnext]
        simp only [ht]
      · rw [preludeText_concat]
        exact (hd.passed.trans henters.head).textTo_eq
  obtain ⟨⟨text, e⟩, d, hd, rfl, hend⟩ := hloop
  exact ⟨e, d, hd, hend⟩

/-- An iteration of scanning parameters takes one more tree of them. -/
theorem exists_paramsTurn {t : TokenTree} (params : List Char)
    (hnext : c.next = (some t.head, d)) (hterm : terminator? t.head.token = none)
    (henters : c.Enters d t) (hbound : d.rest.length < bound) :
    ∃ params', paramsTurn bound params c = some (.goesOn params' d.settle) ∧
      ∀ ts, params' ++ paramsFrom (params'.getLast? = some ' ') ts =
        params ++ paramsFrom (params.getLast? = some ' ') (t :: ts) := by
  have hread := henters.tree
  have hsource : t.source ≠ [] := by
    intro hnil
    have hgo := (precedes_of_next_eq_some hnext).trans_reaches d.settle_reaches
    have hlt := hgo.length_lt
    rw [hread.rest, hnil] at hlt
    simp at hlt
  have hleaf (hclosed : t.head.token.closer? = none) : d.settle = d := by
    cases henters with
    | leaf _ _ hd => exact settle_of_opened_eq_none hd
    | group hgroup =>
      rw [TokenTree.head] at hclosed
      rw [hclosed] at hgroup
      cases hgroup
  rw [paramsTurn, hnext]
  simp only [hterm]
  split
  · rename_i text hx
    rw [hleaf (by rw [hx]; rfl)]
    refine ⟨params, rfl, fun ts => ?_⟩
    rw [paramsFrom, TokenTree.token, hx]
  · rename_i text hx
    rw [hleaf (by rw [hx]; rfl)]
    refine ⟨_, rfl, fun ts => ?_⟩
    rw [paramsFrom, TokenTree.token, hx]
    by_cases hspaced : params.getLast? = some ' '
    · simp [hspaced]
    · simp [hspaced]
  · rename_i hcomment hwhitespace
    have hlast : (params ++ t.source).getLast? = t.source.getLast? := by
      rw [List.getLast?_append]
      cases hs : t.source.getLast? with
      | none => exact absurd (List.getLast?_eq_none_iff.1 hs) hsource
      | some a => rfl
    refine ⟨params ++ t.source, ?_, fun ts => ?_⟩
    · split
      · cases henters with
        | leaf hclosed =>
          rename_i hopen
          rw [TokenTree.head, hclosed] at hopen
          cases hopen
        | group hgroup hhead hd hat htree =>
          rw [skipGroup_of_enters (.group hgroup hhead hd hat htree) hbound, Option.map_some,
            hread.textTo_eq]
      · rename_i hclosed
        rw [hleaf (by simpa using hclosed)] at hread ⊢
        rw [hread.textTo_eq]
    · rw [hlast, paramsFrom, List.append_assoc]
      split
      · rename_i hx
        exact absurd hx (hcomment _)
      · rename_i hx
        exact absurd hx (hwhitespace _)
      · rfl

/-- Scanning parameters gives the parameters that the trees in front of the terminator have. -/
theorem exists_scanParams (h : c.At (head ++ tail) ys) (hhead : ∀ t ∈ head, t.endsNode = false)
    (htail : ∀ t ∈ tail.head?, t.endsNode = true) (hbound : c.rest.length < bound) :
    ∃ e d, scanParams bound c = some ((paramsFrom false head, e), d) ∧
      Ended c head ys tail e d := by
  have hloop : ∃ r d, loop (paramsTurn bound) bound [] c = some (r, d) ∧
      r.1 = paramsFrom false head ∧ Ended c head ys tail r.2 d := by
    refine loop_of_invariant
      (R := fun params d => ∃ done ts, done ++ ts = head ∧ Between c done (ts ++ tail) ys d ∧
        d.opened = none ∧ params ++ paramsFrom (params.getLast? = some ' ') ts =
          paramsFrom false head)
      paramsTurn_advances ?_ ⟨[], head, rfl, h.between, h.opened, rfl⟩ hbound
    rintro params d hreach ⟨done, ts, rfl, hd, hopened, hparams⟩
    rcases hd.scan (fun t ht => hhead t (List.mem_append_right _ ht)) htail with
      ⟨rfl, e, d', hfinds, hend⟩ | ⟨t, us, d', rfl, hnext, ht, henters, hd'⟩
    · refine ⟨_, paramsTurn_of_finds params hfinds, ?_⟩
      rw [List.append_nil] at hparams ⊢
      rw [paramsFrom, List.append_nil] at hparams
      exact ⟨hparams, hend⟩
    · rw [settle_of_opened_eq_none hopened] at henters
      have hlt := (precedes_of_next_eq_some hnext).length_lt
      have hle := hreach.length_le
      obtain ⟨params', hturn, hparams'⟩ :=
        exists_paramsTurn params hnext ht henters (by omega : d'.rest.length < bound)
      refine ⟨.goesOn params' d'.settle, hturn, done ++ [t], us, by simp, hd'.settle,
        d'.opened_settle, ?_⟩
      rw [hparams', hparams]
  obtain ⟨⟨text, e⟩, d, hd, rfl, hend⟩ := hloop
  exact ⟨e, d, hd, hend⟩

/-! ## Reading nodes -/

/-- The loop of nodes between two iterations: what has been found, with what the trees ahead will
give, is `total`. -/
def Found (start : Cursor) (all : List TokenTree) (ys : List Lexeme) (total found : Reading)
    (c : Cursor) : Prop :=
  ∃ done ts, done ++ ts = all ∧ Between start done ts ys c ∧ c.opened = none ∧
    found ++ readTrees c.mark .nothing ts = total

/-- Behind the cursor `c`, the block at any cursor is read to its end, and as its trees are. -/
def BlocksRead (block : Cursor → Option (Reading × Cursor)) (c : Cursor) : Prop :=
  ∀ d us zs, c.Precedes d → d.At us zs →
    ∃ e, block d = some (readTrees d.mark .nothing us, e) ∧ Between d us [] zs e

/-- The end of the iteration that reads a node does what the trees from the terminator on do with
what is pending. -/
theorem exists_endNode {block : Cursor → Option (Reading × Cursor)} {bare : Reading}
    {whole : List Node → Node} {p : Pending} {e : Terminator} (found : Reading)
    (hend : Ended c head ys tail e d)
    (hblock : BlocksRead block c) (hbare : p.finish = bare)
    (hwhole : ∀ ns, p.finishBlock (c.mark.advance (sourceAll head)).location ns = whole ns) :
    ∃ found' e', endNode block found whole bare e d = some (.goesOn found' e') ∧
      Found c (head ++ tail) ys
        (found ++ readTrees (c.mark.advance (sourceAll head)) p tail) found' e' := by
  subst hbare
  cases hend with
  | levelEnd hopened hd =>
    refine ⟨_, d, rfl, head, [], rfl, hd, hopened, ?_⟩
    exact Reading.append_nothing _
  | @semicolon _ x us hx hopened hd =>
    refine ⟨_, d, rfl, head ++ [.leaf x], us, by simp, hd, hopened, ?_⟩
    have hpassed := hd.passed
    rw [settle_of_opened_eq_none hopened, sourceAll_append] at hpassed
    rw [readTrees, readTree_semicolon _ _ hx, Reading.append_assoc, hpassed.mark,
      Mark.advance_append]
    simp [sourceAll]
  | @block c' _ x inner us closer hx hread hgo henters hd =>
    obtain ⟨zs, hat, hgroup⟩ := henters.inGroup_eq
    have hprecedes : c.Precedes d.inside :=
      (hread.reaches.trans_precedes hgo).trans_reaches d.reads_inside.reaches
    obtain ⟨e, he, hinside⟩ := hblock _ _ _ hprecedes hat
    have hmark : d.inside.mark = (c.mark.advance (sourceAll head)).advance x.source := by
      rw [d.reads_inside.mark, henters.head.mark, hread.mark]
      rfl
    refine ⟨found ++ ⟨[whole (readTrees d.inside.mark .nothing inner).nodes],
      (readTrees d.inside.mark .nothing inner).skipped⟩, d.settle, ?_,
      head ++ [.group x inner closer], us, by simp, hd.settle, d.opened_settle, ?_⟩
    · rw [endNode, hgroup he hinside]
      rfl
    · have hpassed := hd.passed.mark
      rw [sourceAll_append, Mark.advance_append] at hpassed
      rw [readTrees, readTree_block _ _ inner closer hx, Reading.append_assoc, hpassed, hmark]
      simp only [hwhole, sourceAll, List.append_nil]

/-- What is found behind a cursor on the way is found on the whole. -/
theorem Found.after {done : List TokenTree} {total found : Reading}
    (hd : Between start done ts ys c) (hopened : c.opened = none)
    (h : Found c ts ys total found d) : Found start (done ++ ts) ys total found d := by
  obtain ⟨us, vs, rfl, hus, hd', htotal⟩ := h
  exact ⟨done ++ us, vs, List.append_assoc .., hd.trans hopened hus, hd', htotal⟩

/-- The trees of a prelude begin a node, or there are none. What is pending then makes what the text
of the prelude makes. -/
theorem exists_readTrees_prelude (m : Mark) (hhead : ∀ t ∈ head, t.endsNode = false)
    (hstart : ∀ t ∈ head.head?, t.isBetween = false ∧ ∀ name, t.token ≠ .atKeyword name)
    (tail : List TokenTree) :
    ∃ p : Pending,
      readTrees m .nothing (head ++ tail) = readTrees (m.advance (sourceAll head)) p tail ∧
      p.finish = withoutBlock m.location (Text.trim (preludeText head)) ∧
      ∀ ns, p.finishBlock (m.advance (sourceAll head)).location ns =
        .rule (String.ofList (Text.trim (preludeText head))) ns m.location := by
  cases head with
  | nil => exact ⟨.nothing, rfl, rfl, fun ns => rfl⟩
  | cons t ts =>
    obtain ⟨hbetween, hat⟩ := hstart t rfl
    have ht := hhead t List.mem_cons_self
    have hts := fun u hu => hhead u (List.mem_cons_of_mem _ hu)
    have htake : Pending.nothing.take m.location t = .prelude m.location [t] := by
      rw [Pending.take]
      split
      · rename_i name hname
        exact absurd hname (hat name)
      · rfl
    refine ⟨.prelude m.location (t :: ts).reverse, ?_, ?_, fun ns => ?_⟩
    · rw [List.cons_append, readTrees, readTree_take m ht fun _ => hbetween, htake]
      simp only
      rw [readTrees_append_of_pending hts _ (by simp) tail, ← Mark.advance_append]
      simp only [Pending.takeAll, sourceAll, List.reverse_cons]
      rfl
    · rw [Pending.finish, List.reverse_reverse]
      rfl
    · rw [Pending.finishBlock, List.reverse_reverse]

section Turns

variable {block : Cursor → Option (Reading × Cursor)} {found : Reading} {t : TokenTree}

/-- What comes between nodes is found for itself. -/
theorem exists_nodesTurn_between {r : Reading} (h : c.At (t :: ts) ys)
    (ht : betweenNodes? t.head.token = some r) :
    ∃ d, nodesTurn bound block found c = some (.goesOn (found ++ r) d) ∧
      Found c (t :: ts) ys (found ++ readTrees c.mark .nothing (t :: ts)) (found ++ r) d := by
  obtain ⟨d, hnext, henters, hd⟩ := h.between.next
  rw [settle_of_opened_eq_none h.opened] at henters
  refine ⟨d, by rw [nodesTurn, hnext]; simp only [ht], [t], ts, rfl, hd, ?_⟩
  cases henters with
  | @leaf x _ hread hopened =>
    refine ⟨hopened, ?_⟩
    rw [TokenTree.head] at ht
    rw [readTrees, readTree_between _ ht, Reading.append_assoc, hread.mark]
    rfl
  | @group x _ _ _ hgroup =>
    rw [TokenTree.head] at ht
    cases hx : x.token <;> simp_all [betweenNodes?, Token.closer?]

/-- An at-keyword begins an at-rule. -/
theorem exists_nodesTurn_atRule {name : String} (h : c.At (t :: ts) ys)
    (ht : t.head.token = .atKeyword name) (hbound : c.rest.length < bound)
    (hblock : BlocksRead block c) :
    ∃ found' d, nodesTurn bound block found c = some (.goesOn found' d) ∧
      Found c (t :: ts) ys (found ++ readTrees c.mark .nothing (t :: ts)) found' d := by
  obtain ⟨d, hnext, henters, hd⟩ := h.between.next
  rw [settle_of_opened_eq_none h.opened] at henters
  have hgo := precedes_of_next_eq_some hnext
  have hlt := hgo.length_lt
  cases henters with
  | group hgroup =>
    rw [TokenTree.head] at ht
    rw [ht] at hgroup
    cases hgroup
  | @leaf x _ hread hopened =>
    rw [TokenTree.head] at ht
    obtain ⟨head, tail, rfl, hhead, htail⟩ := exists_endsNode ts
    obtain ⟨e, d', hscan, hend⟩ :=
      exists_scanParams (hd.at hopened) hhead htail (by omega : d.rest.length < bound)
    have hblock' : BlocksRead block d :=
      fun i us zs hi => hblock i us zs (hgo.trans_reaches hi.reaches)
    -- What is pending where the parameters end.
    let p : Pending := .atRule c.mark.location name head.reverse
    let params := String.ofList (Text.trim (paramsFrom false head))
    have hparams : paramsText head.reverse.reverse = params := by rw [List.reverse_reverse]; rfl
    have hbare : p.finish = .node (.atRule name params none c.mark.location) := by
      rw [Pending.finish, hparams]
    have hwhole (ns : List Node) : p.finishBlock (d.mark.advance (sourceAll head)).location ns =
        .atRule name params (some ns) c.mark.location := by
      rw [Pending.finishBlock, hparams]
    have htake : readTree c.mark .nothing (.leaf x) = ({}, .atRule c.mark.location name []) := by
      rw [readTree_take _ (by simp [TokenTree.endsNode, ht])
        fun _ => by simp [TokenTree.isBetween, betweenNodes?, ht]]
      simp only [Pending.take, TokenTree.token, TokenTree.head, ht]
    have hread : readTrees c.mark .nothing (.leaf x :: (head ++ tail)) =
        readTrees (d.mark.advance (sourceAll head)) p tail := by
      rw [readTrees, htake]
      simp only
      rw [readTrees_append_of_pending hhead _ (by simp) tail, hread.mark, Pending.takeAll,
        List.append_nil]
      rfl
    obtain ⟨found', e', hturn, hfound⟩ := exists_endNode found hend hblock' hbare hwhole
    refine ⟨found', e', ?_, ?_⟩
    · rw [nodesTurn, hnext]
      simp only [TokenTree.head, ht, betweenNodes?]
      rw [hscan]
      exact hturn
    · rw [← hread] at hfound
      exact hfound.after hd hopened

/-- Any other token begins a prelude. -/
theorem exists_nodesTurn_prelude (h : c.At (t :: ts) ys) (ht : betweenNodes? t.head.token = none)
    (hat : ∀ name, t.head.token ≠ .atKeyword name) (hbound : c.rest.length < bound)
    (hblock : BlocksRead block c) :
    ∃ found' d, nodesTurn bound block found c = some (.goesOn found' d) ∧
      Found c (t :: ts) ys (found ++ readTrees c.mark .nothing (t :: ts)) found' d := by
  obtain ⟨d, hnext, -⟩ := h.between.next
  have hbetween : t.isBetween = false := by
    cases t with
    | leaf x =>
      rw [TokenTree.head] at ht
      rw [TokenTree.isBetween, ht]
      rfl
    | group => rfl
  obtain ⟨head, tail, hsplit, hhead, htail⟩ := exists_endsNode (t :: ts)
  have hstart : ∀ u ∈ head.head?, u.isBetween = false ∧ ∀ name, u.token ≠ .atKeyword name := by
    intro u hu
    cases head with
    | nil => cases hu
    | cons v head =>
      rw [List.cons_append] at hsplit
      obtain ⟨rfl, -⟩ := List.cons.inj hsplit
      obtain rfl := Option.some.inj hu
      exact ⟨hbetween, hat⟩
  rw [hsplit] at h ⊢
  obtain ⟨e, d, hscan, hend⟩ := exists_scanPrelude h hhead htail hbound
  obtain ⟨p, hread, hbare, hwhole⟩ := exists_readTrees_prelude c.mark hhead hstart tail
  obtain ⟨found', e', hturn, hfound⟩ := exists_endNode found hend hblock hbare hwhole
  refine ⟨found', e', ?_, ?_⟩
  · rw [nodesTurn, hnext]
    simp only [ht]
    rw [hscan]
    exact hturn
  · rwa [hread]

end Turns

/-- An iteration of reading nodes keeps what the trees make. -/
theorem exists_nodesTurn {block : Cursor → Option (Reading × Cursor)} {all : List TokenTree}
    {total found : Reading} (h : Found start all ys total found c) (hbound : c.rest.length < bound)
    (hblock : BlocksRead block c) :
    ∃ t, nodesTurn bound block found c = some t ∧ t.Keeps (Found start all ys total)
      fun r d => r = total ∧ Between start all [] ys d ∧ d.opened = none := by
  obtain ⟨done, ts, rfl, hc, hopened, rfl⟩ := h
  cases ts with
  | nil =>
    have hnext := next_of_at_nil hc.ahead
    rw [settle_of_opened_eq_none hopened] at hnext
    refine ⟨.ends found c, by rw [nodesTurn, hnext], ?_, ?_, hopened⟩
    · rw [readTrees]
      exact (Reading.append_nothing found).symm
    · rwa [List.append_nil]
  | cons t ts =>
    have hat := hc.at hopened
    have hgoes : ∃ found' d, nodesTurn bound block found c = some (.goesOn found' d) ∧
        Found c (t :: ts) ys (found ++ readTrees c.mark .nothing (t :: ts)) found' d := by
      cases hbetween : betweenNodes? t.head.token with
      | some r => exact ⟨_, exists_nodesTurn_between hat hbetween⟩
      | none =>
        by_cases hname : ∃ name, t.head.token = .atKeyword name
        · obtain ⟨name, hname⟩ := hname
          exact exists_nodesTurn_atRule hat hname hbound hblock
        · exact exists_nodesTurn_prelude hat hbetween (fun name h => hname ⟨name, h⟩) hbound hblock
    obtain ⟨found', d, hturn, hfound⟩ := hgoes
    exact ⟨.goesOn found' d, hturn, hfound.after hc hopened⟩

/-- Under bounds that exceed the length of the text, reading nodes gives what the trees of the level
make, and ends where the level ends. -/
theorem exists_readNodes (h : c.At ts ys) (hbound : c.rest.length < bound)
    (hdepth : c.rest.length < depth) :
    ∃ d, readNodes bound depth c = some (readTrees c.mark .nothing ts, d) ∧
      Between c ts [] ys d ∧ d.opened = none := by
  induction depth generalizing c ts ys with
  | zero => omega
  | succ depth ih =>
    have hloop : ∃ r d, readNodes bound (depth + 1) c = some (r, d) ∧
        r = readTrees c.mark .nothing ts ∧ Between c ts [] ys d ∧ d.opened = none := by
      refine loop_of_invariant (R := Found c ts ys (readTrees c.mark .nothing ts))
        nodesTurn_advances (fun found d hreach hfound => ?_)
        ⟨[], ts, rfl, h.between, h.opened, rfl⟩ hbound
      have hle := hreach.length_le
      refine exists_nodesTurn hfound (by omega) fun e us zs he hat => ?_
      -- A block begins further on, where less of the text is left.
      have hlt := he.length_lt
      obtain ⟨e', hread, hend, -⟩ := ih hat (by omega) (by omega)
      exact ⟨e', hread, hend⟩
    obtain ⟨r, d, hread, rfl, hend⟩ := hloop
    exact ⟨d, hread, hend⟩

/-- Under such bounds, the loops read a text as its trees are read, to the end of the text. -/
theorem readNodes_start {s : List Char} (hbound : s.length < bound) (hdepth : s.length < depth) :
    readNodes bound depth (.start s) = some (Reading.ofText s, .behind s) := by
  have hat : (Cursor.start s).At (TokenTree.ofText s) [] := ⟨rfl, Css.levels_ofText s⟩
  obtain ⟨d, hread, hend, hopened⟩ := exists_readNodes hat hbound hdepth
  have hpassed := hend.passed
  rw [settle_of_opened_eq_none hopened, Css.TokenTree.sourceAll_ofText] at hpassed
  have hbehind : (Cursor.start s).Reads s (.behind s) := ⟨(List.append_nil s).symm, rfl⟩
  rw [hread, hpassed.ext hbehind hopened hend.stop]
  rfl

/-- Reading always makes progress. An iteration of any of the loops that goes on leaves the cursor
further on in the text, also where it goes back in between, and blocks are entered further on only.
So reading ends under any bounds that exceed the length of the text; and where it ends, under
whatever bounds, it gives the nodes and the skipped texts of the style sheet and has come to the end
of the text. -/
theorem Stylesheet.parse_progress (css : String) (bound depth : Nat) :
    (Advances (nodesTurn bound (readNodes bound depth)) ∧
      (∀ start, Advances (preludeTurn start)) ∧ Advances (paramsTurn bound) ∧ Advances skipTurn ∧
      EntersAhead (nodesTurn bound)) ∧
    (css.length < bound → css.length < depth →
      (readNodes bound depth (.start css.toList)).isSome) ∧
    ∀ r d, readNodes bound depth (.start css.toList) = some (r, d) →
      r = Reading.ofText css.toList ∧ Stylesheet.parse css = ⟨r.nodes⟩ ∧ d = .behind css.toList := by
  refine ⟨⟨nodesTurn_advances, preludeTurn_advances, paramsTurn_advances, skipTurn_advances,
    nodesTurn_entersAhead⟩, fun hbound hdepth => ?_, fun r d hread => ?_⟩
  · rw [readNodes_start hbound hdepth]
    rfl
  · -- Larger bounds, under which reading ends as well, do not change what it gives.
    let n := bound + depth + css.length + 1
    have hmore : readNodes n n (.start css.toList) = some (r, d) :=
      readNodes_mono (by omega) (by omega) _ _ hread
    have hlength : css.toList.length < n := by
      rw [String.length_toList]
      omega
    rw [readNodes_start hlength hlength] at hmore
    obtain ⟨rfl, rfl⟩ := Prod.mk.inj (Option.some.inj hmore)
    exact ⟨rfl, rfl, rfl⟩

/-- A stray closing bracket, and a block, a parenthesis and a string that nothing closes: the bounds
that the length asks for are enough, and smaller ones with a result give the same nodes. -/
theorem Stylesheet.parse_progress_cut_off :
    (readNodes 8 8 (.start "]\x7b@b(\"c".toList)).isSome ∧
      Stylesheet.parse "]\x7b@b(\"c" = ⟨[.rule "]" [.atRule "b" "(\"c" none ⟨1, 2⟩] ⟨1, 0⟩]⟩ := by
  obtain ⟨-, hends, -⟩ := Stylesheet.parse_progress "]\x7b@b(\"c" 8 8
  obtain ⟨-, -, hresult⟩ := Stylesheet.parse_progress "]\x7b@b(\"c" 5 3
  have hread : readNodes 5 3 (.start "]\x7b@b(\"c".toList) =
      some (⟨[.rule "]" [.atRule "b" "(\"c" none ⟨1, 2⟩] ⟨1, 0⟩], []⟩,
        .behind "]\x7b@b(\"c".toList) := by
    cbv
  obtain ⟨-, hparse, -⟩ := hresult _ _ hread
  exact ⟨hends (by decide) (by decide), hparse⟩

end MailCss
