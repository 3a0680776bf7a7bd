import MailCss.Css.Lossless
import MailCss.Stylesheet.Parser

/-!
# Reading in loops

Style sheets read by loops that move a cursor through the text. A cursor stands on a level, which a
closing token or the end of the text ends. The next token is read at the front of the text that is
left. Right behind the opening token of a group, the group is *open*: it can be entered, which is a
level of its own, and is otherwise skipped when the next token is asked for, not earlier.

`readNodes` reads one node after the other. At anything that begins no at-rule and does not stand
between nodes, it goes back to where that begins and scans on to a semicolon, a curly bracket or the
end of the level; at a curly bracket the group is entered and read in the same way. Loops have a
bound on their iterations, and blocks a bound on their depth; where a bound is reached there is no
result.

The bounds are not what makes the loops end: an iteration that goes on leaves the cursor further on
in the text (`nodesTurn_advances` and its like for the other loops), blocks are entered further on
only (`nodesTurn_entersAhead`), and a result does not change with the bounds (`readNodes_mono`).
-/

namespace MailCss

open Text (Location Mark)
open Css (Token Lexeme scan lexemes)

/-! ## Cursors -/

/-- A place in a text that is being read. -/
structure Cursor where
  mark : Mark
  /-- The text that is left. -/
  rest : List Char
  /-- The closing token of the group that is open. -/
  opened : Option Token := none
  /-- The closing token that ends the level. -/
  stop : Option Token := none

namespace Cursor

/-- The cursor in front of a text. -/
def start (s : List Char) : Cursor := ⟨.start, s, none, none⟩

/-- The cursor behind a text. -/
def behind (s : List Char) : Cursor := ⟨Mark.start.advance s, [], none, none⟩

/-- The cursor so many characters further on. -/
def skip (c : Cursor) (n : Nat) : Cursor :=
  { c with mark := c.mark.advance (c.rest.take n), rest := c.rest.drop n }

/-- The text from a cursor to another. -/
def textTo (c d : Cursor) : List Char := c.rest.take (c.rest.length - d.rest.length)

/-- The number of characters up to the end of the groups that the tokens `owed` close, the innermost
first. -/
def lengthOwed : List Token → List Lexeme → Nat
  | [], _ | _, [] => 0
  | t :: owed, x :: xs =>
    x.source.length +
      if x.token = t then lengthOwed owed xs
      else
        match x.token.closer? with
        | some u => lengthOwed (u :: t :: owed) xs
        | none => lengthOwed (t :: owed) xs

/-- The cursor behind the group that is open, or where it was. -/
def settle (c : Cursor) : Cursor :=
  match c.opened with
  | none => c
  | some t => { c.skip (lengthOwed [t] (lexemes c.rest)) with opened := none }

/-- The next token of the level, unless the level ends, and the cursor behind it. -/
def next (c : Cursor) : Option Lexeme × Cursor :=
  let c := c.settle
  match c.rest with
  | [] => (none, c)
  | a :: r =>
    let x := scan a r
    if c.stop = some x.token then (none, c)
    else (some x, { c.skip x.source.length with opened := x.token.closer? })

/-- The cursor inside the group that is open. -/
def inside (c : Cursor) : Cursor := { c with opened := none, stop := c.opened }

/-- Reads the group that is open by `body`, and skips what `body` leaves of it. Besides what `body`
gives, says whether it left nothing. -/
def inGroup {α : Type} (body : Cursor → Option (α × Cursor)) (c : Cursor) :
    Option ((α × Bool) × Cursor) :=
  if c.opened.isNone then none
  else
    (body c.inside).map fun (a, d) =>
      ((a, d.next.1.isNone), { settle { d.settle with opened := c.opened } with stop := c.stop })

end Cursor

/-! ## Loops -/

/-- What an iteration comes to: the loop ends with a result, or goes on. -/
inductive Turn (α σ : Type) where
  | ends (result : α) (c : Cursor)
  | goesOn (state : σ) (c : Cursor)

/-- Repeats `turn` until the loop ends, at most `bound` times. -/
def loop {α σ : Type} (turn : σ → Cursor → Option (Turn α σ)) :
    Nat → σ → Cursor → Option (α × Cursor)
  | 0, _, _ => none
  | bound + 1, s, c =>
    match turn s c with
    | none => none
    | some (.ends a c') => some (a, c')
    | some (.goesOn s' c') => loop turn bound s' c'

/-- An iteration of skipping a group token by token. -/
def skipTurn (_ : Unit) (c : Cursor) : Option (Turn Unit Unit) :=
  match c.next with
  | (none, c') => some (.ends () c')
  | (some _, c') => some (.goesOn () c')

/-- The cursor behind the group that is open. -/
def skipGroup (bound : Nat) (c : Cursor) : Option Cursor :=
  (c.inGroup (loop skipTurn bound ())).map Prod.snd

/-- How a prelude ends. -/
inductive Terminator where
  | block
  | semicolon
  | levelEnd

/-- How a token ends the prelude in front of it, if it does. -/
def terminator? : Token → Option Terminator
  | .semicolon => some .semicolon
  | .curlyOpen => some .block
  | _ => none

/-- An iteration of scanning the prelude that begins at `start`. -/
def preludeTurn (start : Cursor) (_ : Unit) (c : Cursor) :
    Option (Turn (List Char × Terminator) Unit) :=
  match c.next with
  | (none, c') => some (.ends (start.textTo c, .levelEnd) c')
  | (some x, c') =>
    match terminator? x.token with
    | some e => some (.ends (start.textTo c, e) c')
    | none => some (.goesOn () c')

/-- Scans the prelude at a cursor: its text, and how it ends. -/
def scanPrelude (bound : Nat) (c : Cursor) : Option ((List Char × Terminator) × Cursor) :=
  loop (preludeTurn c) bound () c

/-- An iteration of scanning parameters, of which `params` are those so far. -/
def paramsTurn (bound : Nat) (params : List Char) (c : Cursor) :
    Option (Turn (List Char × Terminator) (List Char)) :=
  match c.next with
  | (none, c') => some (.ends (params, .levelEnd) c')
  | (some x, c') =>
    match terminator? x.token with
    | some e => some (.ends (params, e) c')
    | none =>
      match x.token with
      | .comment _ => some (.goesOn params c')
      | .whitespace _ =>
        some (.goesOn (if params.getLast? = some ' ' then params else params ++ [' ']) c')
      | t =>
        if t.closer?.isSome then
          (skipGroup bound c').map fun d => .goesOn (params ++ c.textTo d) d
        else some (.goesOn (params ++ c.textTo c') c')

/-- Scans the parameters at a cursor: their text, and how they end. -/
def scanParams (bound : Nat) (c : Cursor) : Option ((List Char × Terminator) × Cursor) :=
  loop (paramsTurn bound) bound [] c

/-- What a trimmed prelude is without a block: a declaration, nothing, or skipped. -/
def withoutBlock (here : Location) (text : List Char) : Reading :=
  match declaration? text with
  | some n => .node n
  | none => if text = [] then {} else { skipped := [⟨String.ofList text, here⟩] }

/-- The end of the iteration that reads a node: the node is `whole` with the nodes of its block, if
it has one, and otherwise `bare`. -/
def endNode (block : Cursor → Option (Reading × Cursor)) (found : Reading)
    (whole : List Node → Node) (bare : Reading) :
    Terminator → Cursor → Option (Turn Reading Reading)
  | .block, c =>
    (c.inGroup block).map fun ((b, exhausted), c') =>
      .goesOn (found ++ ⟨[whole (if exhausted then b.nodes else [])], b.skipped⟩) c'
  | .semicolon, c | .levelEnd, c => some (.goesOn (found ++ bare) c)

/-- An iteration of reading nodes, where `block` reads what is in a block. -/
def nodesTurn (bound : Nat) (block : Cursor → Option (Reading × Cursor)) (found : Reading)
    (c : Cursor) : Option (Turn Reading Reading) :=
  let here := c.mark.location
  match c.next with
  | (none, c') => some (.ends found c')
  | (some x, c') =>
    match betweenNodes? x.token with
    | some r => some (.goesOn (found ++ r) c')
    | none =>
      match x.token with
      | .atKeyword name =>
        (scanParams bound c').bind fun ((text, terminator), d) =>
          let params := String.ofList (Text.trim text)
          endNode block found (fun ns => .atRule name params (some ns) here)
            (.node (.atRule name params none here)) terminator d
      | _ =>
        -- The token is read again, as the first one of the prelude.
        (scanPrelude bound c).bind fun ((text, terminator), d) =>
          endNode block found (fun ns => .rule (String.ofList (Text.trim text)) ns here)
            (withoutBlock here (Text.trim text)) terminator d

/-- Reads the nodes from a cursor to the end of its level. -/
def readNodes (bound : Nat) : Nat → Cursor → Option (Reading × Cursor)
  | 0, _ => none
  | depth + 1, c => loop (nodesTurn bound (readNodes bound depth)) bound {} c

/-! ## Going on in the text -/

namespace Cursor

/-- From `c` to `d`, the text `w` is read. -/
structure Reads (c : Cursor) (w : List Char) (d : Cursor) : Prop where
  rest : c.rest = w ++ d.rest
  mark : d.mark = c.mark.advance w

/-- The cursor `d` is at `c` or further on. -/
def Reaches (c d : Cursor) : Prop := ∃ w, c.Reads w d

/-- The cursor `d` is further on than `c`. -/
def Precedes (c d : Cursor) : Prop := ∃ w, w ≠ [] ∧ c.Reads w d

variable {c d e : Cursor} {v w : List Char}

theorem Reads.refl (c : Cursor) : c.Reads [] c := ⟨rfl, rfl⟩

theorem Reads.trans (h : c.Reads v d) (h' : d.Reads w e) : c.Reads (v ++ w) e where
  rest := by rw [h.rest, h'.rest, List.append_assoc]
  mark := by rw [h'.mark, h.mark, Mark.advance_append]

theorem Reads.textTo_eq (h : c.Reads w d) : c.textTo d = w := by
  rw [textTo, h.rest]
  simp

theorem reads_skip (c : Cursor) (n : Nat) : c.Reads (c.rest.take n) (c.skip n) where
  rest := (List.take_append_drop n c.rest).symm
  mark := rfl

theorem Reads.reaches (h : c.Reads w d) : c.Reaches d := ⟨w, h⟩

theorem Reaches.refl (c : Cursor) : c.Reaches c := (Reads.refl c).reaches

theorem Reaches.trans (h : c.Reaches d) (h' : d.Reaches e) : c.Reaches e := by
  obtain ⟨v, hv⟩ := h
  obtain ⟨w, hw⟩ := h'
  exact ⟨v ++ w, hv.trans hw⟩

theorem Precedes.reaches (h : c.Precedes d) : c.Reaches d := by
  obtain ⟨w, -, hw⟩ := h
  exact hw.reaches

theorem Precedes.trans_reaches (h : c.Precedes d) (h' : d.Reaches e) : c.Precedes e := by
  obtain ⟨v, hne, hv⟩ := h
  obtain ⟨w, hw⟩ := h'
  exact ⟨v ++ w, by simp [hne], hv.trans hw⟩

theorem Reaches.trans_precedes (h : c.Reaches d) (h' : d.Precedes e) : c.Precedes e := by
  obtain ⟨v, hv⟩ := h
  obtain ⟨w, hne, hw⟩ := h'
  exact ⟨v ++ w, by simp [hne], hv.trans hw⟩

/-- Further on, less of the text is left. -/
theorem Precedes.length_lt (h : c.Precedes d) : d.rest.length < c.rest.length := by
  obtain ⟨w, hne, hw⟩ := h
  have := List.length_pos_iff.2 hne
  rw [hw.rest, List.length_append]
  omega

theorem Reaches.length_le (h : c.Reaches d) : d.rest.length ≤ c.rest.length := by
  obtain ⟨w, hw⟩ := h
  rw [hw.rest, List.length_append]
  omega

theorem settle_reaches (c : Cursor) : c.Reaches c.settle := by
  rw [settle]
  split
  · exact .refl c
  · obtain ⟨hrest, hmark⟩ := c.reads_skip (lengthOwed [_] (lexemes c.rest))
    exact ⟨_, hrest, hmark⟩

/-- Where a level ends, the cursor does not go back. -/
theorem reaches_of_next_eq_none (h : c.next = (none, d)) : c.Reaches d := by
  have hd : d = c.settle := by
    simp only [next] at h
    split at h
    · exact (Prod.mk.inj h).2.symm
    · split at h
      · exact (Prod.mk.inj h).2.symm
      · cases h
  rw [hd]
  exact c.settle_reaches

/-- A token takes at least one character of the text. -/
theorem precedes_of_next_eq_some {x : Lexeme} (h : c.next = (some x, d)) : c.Precedes d := by
  refine c.settle_reaches.trans_precedes ?_
  simp only [next] at h
  split at h
  · cases h
  · rename_i a r hrest
    split at h
    · cases h
    · obtain ⟨-, rfl⟩ := Prod.mk.inj h
      obtain ⟨hread, hmark⟩ := c.settle.reads_skip (scan a r).source.length
      have hne : c.settle.rest.take (scan a r).source.length ≠ [] := by
        rw [hrest]
        simpa using Css.scan_source_ne_nil a r
      exact ⟨_, hne, hread, hmark⟩

/-- A group is left where it has been read to, or further on. -/
theorem reaches_of_inGroup {α : Type} {body : Cursor → Option (α × Cursor)} {a : α × Bool}
    (hbody : ∀ c a d, body c = some (a, d) → c.Reaches d) (h : c.inGroup body = some (a, d)) :
    c.Reaches d := by
  rw [inGroup] at h
  split at h
  · cases h
  · obtain ⟨⟨b, e⟩, he, hd⟩ := Option.map_eq_some_iff.1 h
    obtain ⟨-, rfl⟩ := Prod.mk.inj hd
    -- What is open and what ends the level say nothing about the place of a cursor.
    obtain ⟨u, hrest, hmark⟩ := hbody _ _ _ he
    have hin : c.Reaches e := ⟨u, hrest, hmark⟩
    obtain ⟨v, hrest, hmark⟩ := e.settle_reaches
    have hsettled : e.Reaches { e.settle with opened := c.opened } := ⟨v, hrest, hmark⟩
    obtain ⟨w, hrest, hmark⟩ := settle_reaches { e.settle with opened := c.opened }
    exact (hin.trans hsettled).trans ⟨w, hrest, hmark⟩

theorem reads_inside (c : Cursor) : c.Reads [] c.inside := ⟨rfl, rfl⟩

/-- The group that is open is entered where the cursor is. -/
theorem inGroup_congr {α : Type} {body body' : Cursor → Option (α × Cursor)}
    (h : ∀ d, c.Reaches d → body d = body' d) : c.inGroup body = c.inGroup body' := by
  rw [inGroup, inGroup, h c.inside c.reads_inside.reaches]

end Cursor

open Cursor

variable {bound depth : Nat}

/-! ### Iterations -/

section Turns

variable {α σ : Type} {turn : σ → Cursor → Option (Turn α σ)}

/-- An iteration after which the loop goes on leaves the cursor further on. -/
def Advances (turn : σ → Cursor → Option (Turn α σ)) : Prop :=
  ∀ s c s' c', turn s c = some (.goesOn s' c') → c.Precedes c'

/-- An iteration that ends the loop does not take the cursor back. -/
def EndsAhead (turn : σ → Cursor → Option (Turn α σ)) : Prop :=
  ∀ s c a c', turn s c = some (.ends a c') → c.Reaches c'

/-- An iteration that reads blocks enters them further on: what is read of a block anywhere else makes
no difference to it. -/
def EntersAhead (turn : (Cursor → Option (Reading × Cursor)) → σ → Cursor → Option (Turn α σ)) :
    Prop :=
  ∀ block block' s c, (∀ d, c.Precedes d → block d = block' d) → turn block s c = turn block' s c

/-- A loop takes the cursor on. -/
theorem reaches_of_loop (hgo : Advances turn) (hend : EndsAhead turn) {n : Nat} {s : σ} {a : α}
    {c d : Cursor} (h : loop turn n s c = some (a, d)) : c.Reaches d := by
  induction n generalizing s c with
  | zero => cases h
  | succ n ih =>
    rw [loop] at h
    split at h
    · cases h
    · rename_i hturn
      obtain ⟨rfl, rfl⟩ := Prod.mk.inj (Option.some.inj h)
      exact hend _ _ _ _ hturn
    · rename_i hturn
      exact (hgo _ _ _ _ hturn).reaches.trans (ih h)

end Turns

theorem skipTurn_advances : Advances skipTurn := by
  intro s c s' c' h
  rw [skipTurn] at h
  split at h
  · cases h
  · rename_i hnext
    cases h
    exact precedes_of_next_eq_some hnext

theorem skipTurn_endsAhead : EndsAhead skipTurn := by
  intro s c a c' h
  rw [skipTurn] at h
  split at h
  · rename_i hnext
    cases h
    exact reaches_of_next_eq_none hnext
  · cases h

theorem reaches_of_skipGroup {c d : Cursor} (h : skipGroup bound c = some d) : c.Reaches d := by
  obtain ⟨⟨a, e⟩, he, rfl⟩ := Option.map_eq_some_iff.1 h
  exact reaches_of_inGroup (fun _ _ _ => reaches_of_loop skipTurn_advances skipTurn_endsAhead) he

theorem preludeTurn_advances (start : Cursor) : Advances (preludeTurn start) := by
  intro s c s' c' h
  rw [preludeTurn] at h
  split at h
  · cases h
  · rename_i hnext
    split at h
    · cases h
    · cases h
      exact precedes_of_next_eq_some hnext

theorem preludeTurn_endsAhead (start : Cursor) : EndsAhead (preludeTurn start) := by
  intro s c a c' h
  rw [preludeTurn] at h
  split at h
  · rename_i hnext
    cases h
    exact reaches_of_next_eq_none hnext
  · rename_i hnext
    split at h
    · cases h
      exact (precedes_of_next_eq_some hnext).reaches
    · cases h

/-- Where a token comes next, scanning a prelude takes the cursor further on, though it begins in
front of that token. -/
theorem precedes_of_scanPrelude {c c' d : Cursor} {x : Lexeme} {a : List Char × Terminator}
    (hnext : c.next = (some x, c')) (h : scanPrelude bound c = some (a, d)) : c.Precedes d := by
  cases bound with
  | zero => cases h
  | succ bound =>
    have hturn : preludeTurn c () c = match terminator? x.token with
        | some e => some (.ends (c.textTo c, e) c')
        | none => some (.goesOn () c') := by
      rw [preludeTurn, hnext]
    rw [scanPrelude, loop, hturn] at h
    split at h
    · cases h
    · rename_i hends
      obtain ⟨rfl, rfl⟩ := Prod.mk.inj (Option.some.inj h)
      split at hends
      · cases hends
        exact precedes_of_next_eq_some hnext
      · cases hends
    · rename_i hgo
      split at hgo
      · cases hgo
      · cases hgo
        exact (precedes_of_next_eq_some hnext).trans_reaches
          (reaches_of_loop (preludeTurn_advances c) (preludeTurn_endsAhead c) h)

theorem paramsTurn_advances : Advances (paramsTurn bound) := by
  intro params c params' c' h
  rw [paramsTurn] at h
  split at h
  · cases h
  rename_i x d hnext
  have hgo : c.Precedes d := precedes_of_next_eq_some hnext
  split at h
  · cases h
  split at h
  · cases h
    exact hgo
  · cases h
    exact hgo
  · split at h
    · obtain ⟨e, he, hturn⟩ := Option.map_eq_some_iff.1 h
      cases hturn
      exact hgo.trans_reaches (reaches_of_skipGroup he)
    · cases h
      exact hgo

theorem paramsTurn_endsAhead : EndsAhead (paramsTurn bound) := by
  intro params c a c' h
  rw [paramsTurn] at h
  split at h
  · rename_i hnext
    cases h
    exact reaches_of_next_eq_none hnext
  rename_i hnext
  split at h
  · cases h
    exact (precedes_of_next_eq_some hnext).reaches
  split at h
  · cases h
  · cases h
  · split at h
    · obtain ⟨e, -, hturn⟩ := Option.map_eq_some_iff.1 h
      cases hturn
    · cases h

section Nodes

variable {block : Cursor → Option (Reading × Cursor)} {found : Reading}
  {whole : List Node → Node} {bare : Reading}

/-- The end of the iteration that reads a node: the loop goes on, and not further back. -/
theorem reaches_of_endNode (hblock : ∀ c r d, block c = some (r, d) → c.Reaches d)
    {e : Terminator} {c : Cursor} {t : Turn Reading Reading}
    (h : endNode block found whole bare e c = some t) :
    ∃ found' d, t = .goesOn found' d ∧ c.Reaches d := by
  cases e with
  | block =>
    obtain ⟨⟨⟨b, exhausted⟩, d⟩, hd, rfl⟩ := Option.map_eq_some_iff.1 h
    exact ⟨_, d, rfl, reaches_of_inGroup hblock hd⟩
  | semicolon | levelEnd =>
    cases h
    exact ⟨_, c, rfl, .refl c⟩

/-- What an iteration of reading nodes does to the cursor: it goes on behind at least one token, or
ends where the level ends. -/
theorem nodesTurn_cases (hblock : ∀ c r d, block c = some (r, d) → c.Reaches d) {c : Cursor}
    {t : Turn Reading Reading} (h : nodesTurn bound block found c = some t) :
    (∃ d, t = .ends found d ∧ c.next = (none, d)) ∨
      ∃ found' d, t = .goesOn found' d ∧ c.Precedes d := by
  rw [nodesTurn] at h
  split at h
  · rename_i hnext
    cases h
    exact .inl ⟨_, rfl, hnext⟩
  rename_i x c' hnext
  have hgo : c.Precedes c' := precedes_of_next_eq_some hnext
  right
  split at h
  · cases h
    exact ⟨_, _, rfl, hgo⟩
  split at h
  · obtain ⟨⟨⟨text, e⟩, d⟩, hscan, hend⟩ := Option.bind_eq_some_iff.1 h
    have hd : c'.Reaches d := reaches_of_loop paramsTurn_advances paramsTurn_endsAhead hscan
    obtain ⟨found', d', rfl, hd'⟩ := reaches_of_endNode hblock hend
    exact ⟨found', d', rfl, hgo.trans_reaches (hd.trans hd')⟩
  · obtain ⟨⟨⟨text, e⟩, d⟩, hscan, hend⟩ := Option.bind_eq_some_iff.1 h
    obtain ⟨found', d', rfl, hd'⟩ := reaches_of_endNode hblock hend
    exact ⟨found', d', rfl, (precedes_of_scanPrelude hnext hscan).trans_reaches hd'⟩

/-- An iteration of reading nodes enters blocks further on only. -/
theorem nodesTurn_entersAhead : EntersAhead (nodesTurn bound) := by
  intro block block' found c h
  have hend {found : Reading} {whole : List Node → Node} {bare : Reading} (e : Terminator)
      {d : Cursor} (hd : c.Precedes d) :
      endNode block found whole bare e d = endNode block' found whole bare e d := by
    cases e with
    | block => rw [endNode, endNode, inGroup_congr fun e he => h e (hd.trans_reaches he)]
    | semicolon | levelEnd => rfl
  rw [nodesTurn, nodesTurn]
  split
  · rfl
  rename_i x c' hnext
  have hgo : c.Precedes c' := precedes_of_next_eq_some hnext
  split
  · rfl
  split
  · refine Option.bind_congr fun ⟨⟨text, e⟩, d⟩ hscan => hend e ?_
    exact hgo.trans_reaches (reaches_of_loop paramsTurn_advances paramsTurn_endsAhead hscan)
  · exact Option.bind_congr fun ⟨⟨text, e⟩, d⟩ hscan =>
      hend e (precedes_of_scanPrelude hnext hscan)

end Nodes

/-- Reading nodes takes the cursor on. -/
theorem reaches_of_readNodes {c d : Cursor} {r : Reading}
    (h : readNodes bound depth c = some (r, d)) : c.Reaches d := by
  induction depth generalizing c r d with
  | zero => cases h
  | succ depth ih =>
    refine reaches_of_loop ?_ ?_ h
    · intro found c found' c' hturn
      rcases nodesTurn_cases (fun _ _ _ => ih) hturn with ⟨_, ht, -⟩ | ⟨_, _, ht, hgo⟩
      · cases ht
      · cases ht
        exact hgo
    · intro found c a c' hturn
      rcases nodesTurn_cases (fun _ _ _ => ih) hturn with ⟨_, ht, hnext⟩ | ⟨_, _, ht, -⟩
      · cases ht
        exact reaches_of_next_eq_none hnext
      · cases ht

theorem nodesTurn_advances : Advances (nodesTurn bound (readNodes bound depth)) := by
  intro found c found' c' hturn
  rcases nodesTurn_cases (fun _ _ _ => reaches_of_readNodes) hturn with ⟨_, ht, -⟩ | ⟨_, _, ht, hgo⟩
  · cases ht
  · cases ht
    exact hgo

/-! ## Larger bounds -/

/-- What `g` gives extends what `f` gives: where `f` has a result, it is the result of `g`. -/
def Extends {α β : Type} (f g : α → Option β) : Prop := ∀ a b, f a = some b → g a = some b

variable {bound' depth' : Nat}

theorem loop_mono {α σ : Type} {turn turn' : σ → Cursor → Option (Turn α σ)}
    (h : ∀ s, Extends (turn s) (turn' s)) (hle : bound ≤ bound') (s : σ) :
    Extends (loop turn bound s) (loop turn' bound' s) := by
  intro c r hr
  induction bound generalizing bound' s c with
  | zero => cases hr
  | succ n ih =>
    obtain ⟨m, rfl⟩ := Nat.exists_eq_add_of_le' (Nat.lt_of_lt_of_le n.succ_pos hle)
    rw [loop] at hr
    cases hturn : turn s c with
    | none =>
      rw [hturn] at hr
      cases hr
    | some t =>
      rw [hturn] at hr
      rw [loop, h s c t hturn]
      cases t with
      | ends a d => exact hr
      | goesOn s' d => exact ih (Nat.le_of_succ_le_succ hle) s' d hr

theorem inGroup_mono {α : Type} {body body' : Cursor → Option (α × Cursor)}
    (h : Extends body body') : Extends (inGroup body) (inGroup body') := by
  intro c r hr
  rw [inGroup] at hr ⊢
  split at hr
  · cases hr
  · rename_i hopen
    obtain ⟨a, ha, rfl⟩ := Option.map_eq_some_iff.1 hr
    rw [if_neg hopen, h _ a ha]
    rfl

theorem skipGroup_mono (hle : bound ≤ bound') : Extends (skipGroup bound) (skipGroup bound') := by
  intro c d hd
  obtain ⟨r, hr, rfl⟩ := Option.map_eq_some_iff.1 hd
  have hbody : Extends (loop skipTurn bound ()) (loop skipTurn bound' ()) :=
    loop_mono (fun _ _ _ h => h) hle ()
  rw [skipGroup, inGroup_mono hbody c r hr]
  rfl

theorem scanPrelude_mono (hle : bound ≤ bound') :
    Extends (scanPrelude bound) (scanPrelude bound') :=
  fun c => loop_mono (fun _ _ _ h => h) hle () c

theorem paramsTurn_mono (hle : bound ≤ bound') (params : List Char) :
    Extends (paramsTurn bound params) (paramsTurn bound' params) := by
  intro c t ht
  rw [paramsTurn] at ht ⊢
  split at ht
  · exact ht
  split at ht
  · exact ht
  split at ht
  · exact ht
  · exact ht
  · split at ht
    · rename_i hopen
      obtain ⟨d, hd, rfl⟩ := Option.map_eq_some_iff.1 ht
      rw [if_pos hopen, skipGroup_mono hle _ d hd]
      rfl
    · rename_i hopen
      rw [if_neg hopen]
      exact ht

theorem scanParams_mono (hle : bound ≤ bound') : Extends (scanParams bound) (scanParams bound') :=
  loop_mono (paramsTurn_mono hle) hle []

theorem endNode_mono {block block' : Cursor → Option (Reading × Cursor)}
    (h : Extends block block') (found : Reading) (whole : List Node → Node) (bare : Reading)
    (e : Terminator) :
    Extends (endNode block found whole bare e) (endNode block' found whole bare e) := by
  intro c t ht
  cases e with
  | block =>
    obtain ⟨r, hr, rfl⟩ := Option.map_eq_some_iff.1 ht
    rw [endNode, inGroup_mono h c r hr]
    rfl
  | semicolon | levelEnd => exact ht

theorem nodesTurn_mono {block block' : Cursor → Option (Reading × Cursor)}
    (h : Extends block block') (hle : bound ≤ bound') (found : Reading) :
    Extends (nodesTurn bound block found) (nodesTurn bound' block' found) := by
  intro c t ht
  rw [nodesTurn] at ht ⊢
  split at ht
  · exact ht
  split at ht
  · exact ht
  split at ht
  · obtain ⟨⟨⟨text, e⟩, d⟩, hscan, hend⟩ := Option.bind_eq_some_iff.1 ht
    rw [scanParams_mono hle _ _ hscan]
    exact endNode_mono h _ _ _ e d t hend
  · obtain ⟨⟨⟨text, e⟩, d⟩, hscan, hend⟩ := Option.bind_eq_some_iff.1 ht
    rw [scanPrelude_mono hle _ _ hscan]
    exact endNode_mono h _ _ _ e d t hend

/-- Where reading has a result, it has the same under larger bounds. -/
theorem readNodes_mono (hbound : bound ≤ bound') (hdepth : depth ≤ depth') :
    Extends (readNodes bound depth) (readNodes bound' depth') := by
  induction depth generalizing depth' with
  | zero =>
    intro c r hr
    cases hr
  | succ depth ih =>
    obtain ⟨m, rfl⟩ := Nat.exists_eq_add_of_le' (Nat.lt_of_lt_of_le depth.succ_pos hdepth)
    have hblock := ih (Nat.le_of_succ_le_succ hdepth)
    exact loop_mono (nodesTurn_mono hblock hbound) hbound {}

end MailCss
