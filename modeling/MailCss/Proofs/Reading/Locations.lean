import MailCss.Proofs.Reading.Steps
import MailCss.Proofs.Text.Lines

/-!
# Moving locations

Nodes with their locations changed: taken away, to compare nodes without them, or moved some lines
down. Where reading begins matters to the locations of what is found and to nothing else: reading
the same trees from two marks finds the same, once the locations of both are brought together.

Main statements: `readTrees_relocate`, and its instances `readTrees_lowered` (from a lower mark the
same is found, that much lower) and `readTrees_unlocated` (up to locations, any mark will do).
-/

namespace MailCss

open Text (Location Mark)
open Css (TokenTree)

namespace Node

mutual

/-- A node with a function applied to the locations in it. -/
def relocate (f : Location → Location) : Node → Node
  | .rule selector nodes location => .rule selector (relocateAll f nodes) (f location)
  | .atRule name params (some nodes) location =>
    .atRule name params (some (relocateAll f nodes)) (f location)
  | .atRule name params none location => .atRule name params none (f location)
  | .declaration property value => .declaration property value
  | .comment text => .comment text

/-- Nodes with a function applied to the locations in them. -/
def relocateAll (f : Location → Location) : List Node → List Node
  | [] => []
  | n :: ns => relocate f n :: relocateAll f ns

end

theorem relocateAll_append (f : Location → Location) (ms ns : List Node) :
    relocateAll f (ms ++ ns) = relocateAll f ms ++ relocateAll f ns := by
  induction ms with
  | nil => rfl
  | cons m ms ih => rw [List.cons_append, relocateAll, ih, relocateAll, List.cons_append]

mutual

theorem relocate_id : ∀ n : Node, n.relocate id = n
  | .rule selector nodes location => by rw [relocate, relocateAll_id nodes, id]
  | .atRule name params (some nodes) location => by rw [relocate, relocateAll_id nodes, id]
  | .atRule name params none location => by rw [relocate, id]
  | .declaration property value => by rw [relocate]
  | .comment text => by rw [relocate]

theorem relocateAll_id : ∀ ns : List Node, relocateAll id ns = ns
  | [] => rfl
  | n :: ns => by rw [relocateAll, relocate_id n, relocateAll_id ns]

end

/-- Nodes without their locations. -/
def unlocatedAll (ns : List Node) : List Node := relocateAll (fun _ => {}) ns

/-- Nodes some lines further down. -/
def loweredAll (k : Nat) (ns : List Node) : List Node := relocateAll (Location.lowered k) ns

theorem unlocatedAll_append (ms ns : List Node) :
    unlocatedAll (ms ++ ns) = unlocatedAll ms ++ unlocatedAll ns :=
  relocateAll_append _ ms ns

end Node

/-- Skipped text with a function applied to its location. -/
def Skipped.relocate (f : Location → Location) (s : Skipped) : Skipped :=
  { s with location := f s.location }

/-- Skipped text some lines further down. -/
def Skipped.lowered (k : Nat) (s : Skipped) : Skipped :=
  { s with location := s.location.lowered k }

namespace Reading

/-- What was read, with a function applied to the locations in it. -/
def relocate (f : Location → Location) (r : Reading) : Reading :=
  ⟨Node.relocateAll f r.nodes, r.skipped.map (Skipped.relocate f)⟩

/-- What was read, some lines further down. -/
def lowered (k : Nat) (r : Reading) : Reading :=
  ⟨Node.loweredAll k r.nodes, r.skipped.map (Skipped.lowered k)⟩

theorem relocate_lowered (k : Nat) (r : Reading) : r.relocate (Location.lowered k) = r.lowered k :=
  rfl

theorem relocate_id (r : Reading) : r.relocate id = r := by
  have hskipped : Skipped.relocate id = id := rfl
  rw [relocate, Node.relocateAll_id, hskipped, List.map_id]

theorem append_assoc (a b c : Reading) : a ++ b ++ c = a ++ (b ++ c) := by
  show Reading.mk _ _ = Reading.mk _ _
  simp only [nodes_append, skipped_append, List.append_assoc]

theorem append_nothing (a : Reading) : a ++ {} = a := by
  show Reading.mk _ _ = a
  simp only [List.append_nil]

theorem relocate_append (f : Location → Location) (a b : Reading) :
    (a ++ b).relocate f = a.relocate f ++ b.relocate f := by
  simp only [relocate, nodes_append, skipped_append, Node.relocateAll_append, List.map_append]
  rfl

end Reading

namespace Pending

/-- What is pending, with a function applied to where it begins. -/
def relocate (f : Location → Location) : Pending → Pending
  | .nothing => .nothing
  | .prelude start taken => .prelude (f start) taken
  | .atRule start name taken => .atRule (f start) name taken

variable (f : Location → Location)

theorem finish_relocate (p : Pending) : (p.relocate f).finish = p.finish.relocate f := by
  cases p with
  | nothing => rfl
  | prelude start taken =>
    simp only [relocate, finish]
    split
    · rename_i n hn
      simp only [declaration?] at hn
      split at hn
      · cases hn
      · split at hn
        · cases hn
        · cases hn
          rfl
    · split <;> rfl
  | atRule start name taken => rfl

theorem finishBlock_relocate (here : Location) (block : List Node) (p : Pending) :
    (p.relocate f).finishBlock (f here) (Node.relocateAll f block) =
      (p.finishBlock here block).relocate f := by
  cases p <;> rfl

theorem take_relocate (here : Location) (t : TokenTree) (p : Pending) :
    (p.relocate f).take (f here) t = (p.take here t).relocate f := by
  cases p with
  | nothing =>
    simp only [relocate, take]
    split <;> rfl
  | prelude => rfl
  | atRule => rfl

variable {f} {g : Location → Location}

theorem relocate_nothing : Pending.nothing.relocate f = Pending.nothing.relocate g := rfl

theorem eq_nothing_iff_of_relocate {p p' : Pending} (h : p.relocate f = p'.relocate g) :
    p = .nothing ↔ p' = .nothing := by
  cases p <;> cases p' <;> simp_all [relocate]

end Pending

theorem relocate_of_betweenNodes? {t : Css.Token} {r : Reading} (h : betweenNodes? t = some r)
    (f : Location → Location) : r.relocate f = r := by
  cases t <;> cases h <;> rfl

section Relocate

variable {f g : Location → Location}

/-- However far one reads on from them, `f` and `g` bring the locations of two marks together. -/
def Text.Mark.Agree (f g : Location → Location) (m m' : Mark) : Prop :=
  ∀ w, f (m.advance w).location = g (m'.advance w).location

theorem Text.Mark.Agree.advance {m m' : Mark} (h : m.Agree f g m') (w : List Char) :
    (m.advance w).Agree f g (m'.advance w) := by
  intro v
  rw [← Mark.advance_append, ← Mark.advance_append]
  exact h (w ++ v)

/-- What reading one tree completes and what is pending after it, with the locations changed. -/
def relocateStep (f : Location → Location) (x : Reading × Pending) : Reading × Pending :=
  (x.1.relocate f, x.2.relocate f)

theorem readTree_relocate_of_take {m m' : Mark} {p p' : Pending} {t : TokenTree}
    (hm : m.Agree f g m') (hp : p.relocate f = p'.relocate g) (hends : t.endsNode = false)
    (hbetween : p = .nothing → t.isBetween = false) :
    relocateStep f (readTree m p t) = relocateStep g (readTree m' p' t) := by
  rw [readTree_take m hends hbetween, readTree_take m' hends fun h =>
    hbetween ((Pending.eq_nothing_iff_of_relocate hp).2 h)]
  simp only [relocateStep, ← Pending.take_relocate, hp]
  rw [show f m.location = g m'.location from hm []]
  rfl

mutual

/-- Reading one tree from two marks. -/
theorem readTree_relocate {m m' : Mark} {p p' : Pending} (hm : m.Agree f g m')
    (hp : p.relocate f = p'.relocate g) : ∀ t : TokenTree,
    relocateStep f (readTree m p t) = relocateStep g (readTree m' p' t)
  | .group x inner closer => by
    by_cases hx : x.token = .curlyOpen
    · -- The block is read from its own marks, which agree as well.
      have hinner := readTrees_relocate (hm.advance x.source) Pending.relocate_nothing inner
      rw [Reading.relocate, Reading.relocate, Reading.mk.injEq] at hinner
      have hnode {h : Location → Location} (n : Node) : Node.relocateAll h [n] = [n.relocate h] :=
        rfl
      have hstart : f m.location = g m'.location := hm []
      rw [readTree_block _ _ inner closer hx, readTree_block _ _ inner closer hx]
      simp only [relocateStep, Reading.relocate, hnode, ← Pending.finishBlock_relocate, hinner, hp,
        hstart]
      rfl
    · exact readTree_relocate_of_take hm hp (by simpa [TokenTree.endsNode] using hx) fun _ => rfl
  | .leaf x => by
    cases hbetween : betweenNodes? x.token with
    | some r =>
      by_cases hnothing : p = .nothing
      · rw [hnothing, (Pending.eq_nothing_iff_of_relocate hp).1 hnothing,
          readTree_between m hbetween, readTree_between m' hbetween]
        simp only [relocateStep, relocate_of_betweenNodes? hbetween]
        rfl
      · refine readTree_relocate_of_take hm hp ?_ fun h => absurd h hnothing
        rw [TokenTree.endsNode, decide_eq_false_iff_not]
        intro hsemi
        rw [hsemi] at hbetween
        cases hbetween
    | none =>
      by_cases hsemi : x.token = .semicolon
      · rw [readTree_semicolon m p hsemi, readTree_semicolon m' p' hsemi]
        simp only [relocateStep, ← Pending.finish_relocate, hp]
        rfl
      · have hends : (TokenTree.leaf x).endsNode = false := by
          simpa [TokenTree.endsNode] using hsemi
        refine readTree_relocate_of_take hm hp hends fun _ => ?_
        rw [TokenTree.isBetween, hbetween]
        rfl

/-- Reading trees from two marks. -/
theorem readTrees_relocate {m m' : Mark} {p p' : Pending} (hm : m.Agree f g m')
    (hp : p.relocate f = p'.relocate g) : ∀ ts : List TokenTree,
    (readTrees m p ts).relocate f = (readTrees m' p' ts).relocate g
  | [] => by rw [readTrees, readTrees, ← Pending.finish_relocate, hp, Pending.finish_relocate]
  | t :: ts => by
    have hstep := readTree_relocate hm hp t
    simp only [relocateStep, Prod.mk.injEq] at hstep
    rw [readTrees, readTrees]
    simp only
    rw [Reading.relocate_append, Reading.relocate_append, hstep.1,
      readTrees_relocate (hm.advance t.source) hstep.2 ts]

end

/-- Reading from further down. -/
theorem readTrees_lowered (k : Nat) (m : Mark) (ts : List TokenTree) :
    readTrees (m.lowered k) .nothing ts = (readTrees m .nothing ts).lowered k := by
  have hm : m.Agree (Location.lowered k) id (m.lowered k) := by
    intro w
    rw [Mark.advance_lowered, Mark.location_lowered, id]
  have hread := readTrees_relocate hm Pending.relocate_nothing ts
  rw [Reading.relocate_id, Reading.relocate_lowered] at hread
  exact hread.symm

/-- Up to locations, what is found does not depend on where reading begins. -/
theorem readTrees_unlocated (m m' : Mark) (ts : List TokenTree) :
    Node.unlocatedAll (readTrees m .nothing ts).nodes =
        Node.unlocatedAll (readTrees m' .nothing ts).nodes ∧
      (readTrees m .nothing ts).skipped.map Skipped.text =
        (readTrees m' .nothing ts).skipped.map Skipped.text := by
  have hm : m.Agree (fun _ => {}) (fun _ => {}) m' := fun _ => rfl
  have hread := readTrees_relocate hm Pending.relocate_nothing ts
  simp only [Reading.relocate, Reading.mk.injEq] at hread
  refine ⟨hread.1, ?_⟩
  have htexts := congrArg (List.map Skipped.text) hread.2
  simpa [Skipped.relocate, Function.comp_def] using htexts

end Relocate

end MailCss
