import MailCss.Stylesheet.Parser

/-!
# One step of reading

What reading a single tree does, by what the tree is and by what is pending. A tree *ends* a node
if it is a semicolon or a block. Any other tree is added to a prelude or an at-rule that is
pending; where nothing is, it is skipped, is a comment, or begins a node.

Main statements: `readTree_block`, `readTree_semicolon`, `readTree_between` and `readTree_take` (the
four steps), and `readTrees_append_of_pending` (trees that end nothing are taken in one go).
-/

namespace MailCss

open Text (Location Mark)
open Css (TokenTree Token Lexeme)

/-- Whether a tree ends the node before it: a semicolon, or a group in curly brackets. -/
def Css.TokenTree.endsNode : TokenTree → Bool
  | .leaf x => x.token = .semicolon
  | .group x _ _ => x.token = .curlyOpen

/-- Whether a tree stands between nodes where it does not come inside one. -/
def Css.TokenTree.isBetween : TokenTree → Bool
  | .leaf x => (betweenNodes? x.token).isSome
  | .group .. => false

namespace Pending

/-- More trees, none of which ends the node that is pending. -/
def takeAll (ts : List TokenTree) : Pending → Pending
  | .nothing => .nothing
  | .prelude start taken => .prelude start (ts.reverse ++ taken)
  | .atRule start name taken => .atRule start name (ts.reverse ++ taken)

end Pending

variable {m : Mark} {p : Pending} {t : TokenTree} {x : Lexeme}

/-- A group in curly brackets is the block of what is pending, and is read on its own. -/
theorem readTree_block (m : Mark) (p : Pending) (inner : List TokenTree) (closer : List Char)
    (hx : x.token = .curlyOpen) :
    readTree m p (.group x inner closer) =
      (let block := readTrees (m.advance x.source) .nothing inner
       ({ block with nodes := [p.finishBlock m.location block.nodes] }, .nothing)) := by
  rw [readTree]
  simp only [hx]

/-- A semicolon ends what is pending without a block. -/
theorem readTree_semicolon (m : Mark) (p : Pending) (hx : x.token = .semicolon) :
    readTree m p (.leaf x) = (p.finish, .nothing) := by
  rw [readTree]
  · simp [hx]
  · intro r _ hr
    rw [hx] at hr
    cases hr

/-- Where nothing is pending, what stands between nodes is read for itself. -/
theorem readTree_between {r : Reading} (m : Mark) (hx : betweenNodes? x.token = some r) :
    readTree m .nothing (.leaf x) = (r, .nothing) := by
  rw [readTree]
  simp [hx]

/-- Any other tree is taken. -/
theorem readTree_take (m : Mark) (hends : t.endsNode = false)
    (hbetween : p = .nothing → t.isBetween = false) :
    readTree m p t = ({}, p.take m.location t) := by
  cases t with
  | leaf x =>
    have hsemi : x.token ≠ .semicolon := by simpa [TokenTree.endsNode] using hends
    rw [readTree]
    · split
      · rename_i h
        exact absurd h hsemi
      · rfl
    · intro r hp hr
      have hnone := hbetween hp
      rw [TokenTree.isBetween, hr] at hnone
      cases hnone
  | group x inner closer =>
    have hcurly : x.token ≠ .curlyOpen := by simpa [TokenTree.endsNode] using hends
    rw [readTree]
    split
    · rename_i h
      exact absurd h hcurly
    · rfl

theorem Pending.take_eq_takeAll (hp : p ≠ .nothing) (here : Location) (t : TokenTree) :
    p.take here t = p.takeAll [t] := by
  cases p with
  | nothing => exact absurd rfl hp
  | prelude => rfl
  | atRule => rfl

theorem Pending.takeAll_ne_nothing (hp : p ≠ .nothing) (ts : List TokenTree) :
    p.takeAll ts ≠ .nothing := by
  cases p with
  | nothing => exact absurd rfl hp
  | prelude => simp [takeAll]
  | atRule => simp [takeAll]

theorem Pending.takeAll_takeAll (p : Pending) (ts us : List TokenTree) :
    (p.takeAll ts).takeAll us = p.takeAll (ts ++ us) := by
  cases p <;> simp [takeAll]

/-- Trees that end nothing are all added to what is pending. -/
theorem readTrees_append_of_pending {ts : List TokenTree} (hts : ∀ t ∈ ts, t.endsNode = false)
    (m : Mark) (hp : p ≠ .nothing) (us : List TokenTree) :
    readTrees m p (ts ++ us) =
      readTrees (m.advance (TokenTree.sourceAll ts)) (p.takeAll ts) us := by
  induction ts generalizing m p with
  | nil => cases p <;> simp [TokenTree.sourceAll, Pending.takeAll] at *
  | cons t ts ih =>
    have ht := hts t List.mem_cons_self
    have hstep := readTree_take m ht (p := p) fun h => absurd h hp
    rw [Pending.take_eq_takeAll hp] at hstep
    rw [List.cons_append, readTrees, hstep]
    simp only
    rw [ih (fun u hu => hts u (List.mem_cons_of_mem _ hu)) _ (Pending.takeAll_ne_nothing hp _),
      Pending.takeAll_takeAll, TokenTree.sourceAll, Text.Mark.advance_append]
    rfl

end MailCss
