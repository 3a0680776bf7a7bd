import Mathlib.Data.List.Basic
import MailCss.Proofs.Reading.Steps

/-!
# Where nodes are read from

On a level of trees, a node may begin where nothing is pending: at the front, right behind what
ends a node, and behind what stands between nodes there (`NodeStart`). `Node.Source` says where on
a level a node stands and what it is made of: a rule is a prelude and the block right behind it, a
declaration is a prelude that no block follows, an at-rule is an at-keyword and what follows it up
to its block or end.

Main statement: `source_of_mem_readTrees` (every node that is read on a level has a source there).
It comes from one invariant of what is pending (`Pending.Behind`) that each step keeps
(`readTree_behind`).
-/

namespace MailCss

open Text (Location Mark)
open Css (TokenTree Token Lexeme)
open Css.TokenTree (sourceAll sourceAll_append)

/-- A node may begin behind these trees of a level. -/
inductive NodeStart : List TokenTree → Prop where
  | nil : NodeStart []
  | ended {ts t} : t.endsNode = true → NodeStart (ts ++ [t])
  | between {ts t} : NodeStart ts → t.isBetween = true → NodeStart (ts ++ [t])

/-- Trees that end no node, of which the first begins a prelude: it neither stands between nodes
nor is an at-keyword. -/
structure IsPrelude (head : List TokenTree) : Prop where
  inside : ∀ t ∈ head, t.endsNode = false
  first : ∀ t ∈ head.head?, t.isBetween = false ∧ ∀ name, t.token ≠ .atKeyword name

/-- What ends a node without a block: a semicolon, or that nothing follows on the level. -/
def EndsWithoutBlock (after : List TokenTree) : Prop :=
  after = [] ∨ ∃ x us, after = .leaf x :: us ∧ x.token = .semicolon

/-- Where a node stands on the level `ts` that begins at the mark `m`, and what it is made of. -/
def Node.Source (m : Mark) (ts : List TokenTree) : Node → Prop
  | .rule selector nodes location => ∃ before head x inner closer after,
      ts = before ++ (head ++ .group x inner closer :: after) ∧ NodeStart before ∧
      IsPrelude head ∧ x.token = .curlyOpen ∧ location = (m.advance (sourceAll before)).location ∧
      selector = String.ofList (Text.trim (preludeText head)) ∧
      nodes = (readTrees (m.advance (sourceAll before ++ (sourceAll head ++ x.source)))
        .nothing inner).nodes
  | .atRule name params (some nodes) location => ∃ before k head x inner closer after,
      ts = before ++ k :: (head ++ .group x inner closer :: after) ∧ NodeStart before ∧
      k.token = .atKeyword name ∧ (∀ t ∈ head, t.endsNode = false) ∧ x.token = .curlyOpen ∧
      location = (m.advance (sourceAll before)).location ∧ params = paramsText head ∧
      nodes = (readTrees
        (m.advance (sourceAll before ++ (k.source ++ (sourceAll head ++ x.source))))
        .nothing inner).nodes
  | .atRule name params none location => ∃ before k head after,
      ts = before ++ k :: (head ++ after) ∧ NodeStart before ∧ k.token = .atKeyword name ∧
      (∀ t ∈ head, t.endsNode = false) ∧ EndsWithoutBlock after ∧
      location = (m.advance (sourceAll before)).location ∧ params = paramsText head
  | .declaration property value => ∃ before head after,
      ts = before ++ (head ++ after) ∧ NodeStart before ∧ IsPrelude head ∧
      EndsWithoutBlock after ∧
      declaration? (Text.trim (preludeText head)) = some (.declaration property value)
  | .comment text => ∃ before x raw after,
      ts = before ++ .leaf x :: after ∧ NodeStart before ∧ x.token = .comment raw ∧
      text = String.ofList (Text.trim raw.toList)

namespace Pending

/-- What is pending behind the trees `done` of a level that begins at the mark `m`. -/
def Behind (m : Mark) (done : List TokenTree) : Pending → Prop
  | .nothing => NodeStart done
  | .prelude start taken => ∃ before, done = before ++ taken.reverse ∧ NodeStart before ∧
      taken ≠ [] ∧ IsPrelude taken.reverse ∧ start = (m.advance (sourceAll before)).location
  | .atRule start name taken => ∃ before k, done = before ++ k :: taken.reverse ∧
      NodeStart before ∧ k.token = .atKeyword name ∧ (∀ t ∈ taken.reverse, t.endsNode = false) ∧
      start = (m.advance (sourceAll before)).location

variable {m : Mark} {done : List TokenTree} {p : Pending}

/-- What comes of a node that ends without a block. -/
theorem source_of_mem_finish (h : p.Behind m done) {after : List TokenTree}
    (hafter : EndsWithoutBlock after) :
    ∀ n ∈ p.finish.nodes, n.Source m (done ++ after) := by
  intro n hn
  cases p with
  | nothing => cases hn
  | prelude start taken =>
    obtain ⟨before, rfl, hstart, -, hprelude, -⟩ := h
    simp only [finish] at hn
    split at hn
    · rename_i n' hdecl
      obtain rfl : n = n' := by simpa [Reading.node] using hn
      have hshape : ∃ property value, n = .declaration property value := by
        simp only [declaration?] at hdecl
        split at hdecl
        · cases hdecl
        · split at hdecl
          · cases hdecl
          · exact ⟨_, _, (Option.some.inj hdecl).symm⟩
      obtain ⟨property, value, rfl⟩ := hshape
      exact ⟨before, taken.reverse, after, by simp, hstart, hprelude, hafter, hdecl⟩
    · split at hn <;> cases hn
  | atRule start name taken =>
    obtain ⟨before, k, rfl, hstart, hk, htaken, rfl⟩ := h
    obtain rfl : n = _ := by simpa [finish, Reading.node] using hn
    exact ⟨before, k, taken.reverse, after, by simp, hstart, hk, htaken, hafter, rfl, rfl⟩

/-- What comes of a node that ends with a block. -/
theorem source_finishBlock (h : p.Behind m done) {x : Lexeme} (hx : x.token = .curlyOpen)
    (inner : List TokenTree) (closer : List Char) (after : List TokenTree) :
    (p.finishBlock (m.advance (sourceAll done)).location
      (readTrees ((m.advance (sourceAll done)).advance x.source) .nothing inner).nodes).Source m
      (done ++ .group x inner closer :: after) := by
  cases p with
  | nothing =>
    refine ⟨done, [], x, inner, closer, after, rfl, h, ⟨by simp, by simp⟩, hx, rfl, rfl, ?_⟩
    simp [sourceAll]
  | prelude start taken =>
    obtain ⟨before, rfl, hstart, -, hprelude, rfl⟩ := h
    refine ⟨before, taken.reverse, x, inner, closer, after, by simp, hstart, hprelude, hx, rfl,
      rfl, ?_⟩
    simp
  | atRule start name taken =>
    obtain ⟨before, k, rfl, hstart, hk, htaken, rfl⟩ := h
    refine ⟨before, k, taken.reverse, x, inner, closer, after, by simp, hstart, hk, htaken, hx,
      rfl, rfl, ?_⟩
    simp [sourceAll]

/-- Taking a tree that ends nothing keeps what is pending in its place. -/
theorem behind_take (h : p.Behind m done) {t : TokenTree} (hends : t.endsNode = false)
    (hbetween : p = .nothing → t.isBetween = false) :
    (p.take (m.advance (sourceAll done)).location t).Behind m (done ++ [t]) := by
  cases p with
  | nothing =>
    simp only [take]
    split
    · rename_i name hname
      exact ⟨done, t, by simp, h, hname, by simp, rfl⟩
    · rename_i hname
      refine ⟨done, by simp, h, by simp, ⟨by simpa using hends, ?_⟩, rfl⟩
      intro u hu
      obtain rfl : t = u := by simpa using hu
      exact ⟨hbetween rfl, hname⟩
  | prelude start taken =>
    obtain ⟨before, rfl, hstart, hne, hprelude, hloc⟩ := h
    refine ⟨before, by simp, hstart, by simp, ⟨?_, ?_⟩, hloc⟩
    · intro u hu
      rw [List.reverse_cons] at hu
      rcases List.mem_append.1 hu with hu | hu
      · exact hprelude.inside u hu
      · rw [List.mem_singleton.1 hu]
        exact hends
    · -- The prelude is not empty, so it begins as before.
      intro u hu
      rw [List.reverse_cons, List.head?_append_of_ne_nil _ (by simpa using hne)] at hu
      exact hprelude.first u hu
  | atRule start name taken =>
    obtain ⟨before, k, rfl, hstart, hk, htaken, hloc⟩ := h
    refine ⟨before, k, by simp, hstart, hk, ?_, hloc⟩
    intro u hu
    rw [List.reverse_cons] at hu
    rcases List.mem_append.1 hu with hu | hu
    · exact htaken u hu
    · rw [List.mem_singleton.1 hu]
      exact hends

end Pending

open Pending

variable {m : Mark} {done : List TokenTree} {p : Pending}

/-- One step of reading: what is completed has its source among the trees read so far and those to
come, and what is pending afterwards is in its place. -/
theorem readTree_behind (h : p.Behind m done) (t : TokenTree) (after : List TokenTree) :
    (∀ n ∈ (readTree (m.advance (sourceAll done)) p t).1.nodes, n.Source m (done ++ t :: after)) ∧
      (readTree (m.advance (sourceAll done)) p t).2.Behind m (done ++ [t]) := by
  by_cases hends : t.endsNode = true
  · have hnext : NodeStart (done ++ [t]) := .ended hends
    cases t with
    | leaf x =>
      have hx : x.token = .semicolon := by simpa [TokenTree.endsNode] using hends
      rw [readTree_semicolon _ _ hx]
      exact ⟨source_of_mem_finish h (.inr ⟨x, after, rfl, hx⟩), hnext⟩
    | group x inner closer =>
      have hx : x.token = .curlyOpen := by simpa [TokenTree.endsNode] using hends
      rw [readTree_block _ _ _ _ hx]
      refine ⟨?_, hnext⟩
      intro n hn
      obtain rfl : n = _ := by simpa using hn
      exact source_finishBlock h hx inner closer after
  · have hends' : t.endsNode = false := by simpa using hends
    by_cases hskip : p = .nothing ∧ t.isBetween = true
    · obtain ⟨rfl, hbetween⟩ := hskip
      have hnext : NodeStart (done ++ [t]) := .between h hbetween
      cases t with
      | group x inner closer => cases hbetween
      | leaf x =>
        obtain ⟨r, hr⟩ := Option.isSome_iff_exists.1 hbetween
        rw [readTree_between _ hr]
        refine ⟨?_, hnext⟩
        intro n hn
        simp only [betweenNodes?] at hr
        split at hr
        · rename_i raw hraw
          obtain rfl := Option.some.inj hr
          obtain rfl : n = _ := by simpa [Reading.node] using hn
          exact ⟨done, x, raw, after, rfl, h, hraw, rfl⟩
        all_goals
          cases hr
          try cases hn
    · have hbetween : p = .nothing → t.isBetween = false := by
        intro hp
        simpa [hp] using hskip
      rw [readTree_take _ hends' hbetween]
      refine ⟨?_, behind_take h hends' hbetween⟩
      intro n hn
      cases hn

theorem source_of_mem_readTrees_from (h : p.Behind m done) (ts : List TokenTree) :
    ∀ n ∈ (readTrees (m.advance (sourceAll done)) p ts).nodes, n.Source m (done ++ ts) := by
  induction ts generalizing done p with
  | nil =>
    rw [readTrees]
    exact source_of_mem_finish h (.inl rfl)
  | cons t ts ih =>
    obtain ⟨hnow, hnext⟩ := readTree_behind h t ts
    intro n hn
    rw [readTrees] at hn
    simp only [Reading.nodes_append, List.mem_append] at hn
    rcases hn with hn | hn
    · exact hnow n hn
    · have hrest := ih hnext n
      rw [sourceAll_append, Text.Mark.advance_append, List.append_assoc] at hrest
      exact hrest (by simpa [sourceAll] using hn)

/-- Every node that is read on a level has a source there. -/
theorem source_of_mem_readTrees (m : Mark) (ts : List TokenTree) :
    ∀ n ∈ (readTrees m .nothing ts).nodes, n.Source m ts := by
  have hstart : Pending.nothing.Behind m [] := NodeStart.nil
  exact source_of_mem_readTrees_from hstart ts

end MailCss
