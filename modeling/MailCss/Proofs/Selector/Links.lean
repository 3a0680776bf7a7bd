import Mathlib.Data.List.Forall2
import MailCss.Proofs.Selector.Substitution
import MailCss.Sequence.Split

/-!
# Edits keep compounds filled

The compounds of a chain are what its combinators and its two ends leave between them, and may be
empty (`emptyCompounds`). Without empty compounds a chain begins and ends with a component that is
no combinator, and no two combinators stand side by side (`WellLinked`); the chain without
components is a single empty compound.

What is put into a chain by an edit fills the compound that it begins in and the one that it ends
in, if it has no empty compound itself. So an edit never makes the number of empty compounds grow,
wherever the component stands that it replaces, and even if that is a combinator. This goes for one
splice, hence for several in a row and for every edit (`emptyCompounds_apply`), and hence for every
run of edits.

Main statement: `run_emptyCompounds`.
-/

namespace MailCss.Chain

/-! ## Empty compounds -/

/-- The number of empty compounds of a chain. -/
def emptyCompounds (chain : Chain) : Nat :=
  (Sequence.splitWhere Component.isCombinator chain).countP List.isEmpty

/-- The number of empty compounds of a chain that goes on with a compound, which is `filled` or has
no component yet. -/
def emptyFrom (filled : Bool) : Chain → Nat
  | [] => if filled then 0 else 1
  | x :: r =>
    if x.isCombinator then (if filled then 0 else 1) + emptyFrom false r else emptyFrom true r

variable {chain new a b c d : Chain} {filled : Bool} {x : Component}

theorem emptyFrom_eq (chain : Chain) :
    ∃ front rest, Sequence.splitWhere Component.isCombinator chain = front :: rest ∧
      emptyFrom true chain = rest.countP List.isEmpty ∧
      emptyFrom false chain = (front :: rest).countP List.isEmpty := by
  induction chain with
  | nil => exact ⟨[], [], rfl, rfl, rfl⟩
  | cons x r ih =>
    obtain ⟨front, rest, hsplit, htrue, hfalse⟩ := ih
    by_cases hx : x.isCombinator = true
    · refine ⟨[], front :: rest, by rw [Sequence.splitWhere, if_pos hx, hsplit], ?_, ?_⟩
      · simp only [emptyFrom, hx, if_true, hfalse]
        omega
      · simp only [emptyFrom, hx, if_true, hfalse, List.countP_cons (l := front :: rest)]
        simp [Nat.add_comm]
    · refine ⟨x :: front, rest, by rw [Sequence.splitWhere, if_neg hx, hsplit]; rfl, ?_, ?_⟩
      · simp only [emptyFrom, hx, htrue]
        rfl
      · simp only [emptyFrom, hx, htrue]
        simp

theorem emptyCompounds_eq (chain : Chain) : emptyCompounds chain = emptyFrom false chain := by
  obtain ⟨front, rest, hsplit, -, hfalse⟩ := emptyFrom_eq chain
  rw [emptyCompounds, hsplit, hfalse]

/-- A compound that is filled is not empty, whatever follows. -/
theorem emptyFrom_true_le (filled : Bool) (chain : Chain) :
    emptyFrom true chain ≤ emptyFrom filled chain := by
  cases filled with
  | true => exact Nat.le_refl _
  | false =>
    cases chain with
    | nil => exact Nat.zero_le _
    | cons x r =>
      unfold emptyFrom
      split
      · simp
      · exact Nat.le_refl _

/-- What comes first does not matter to which of two continuations has more empty compounds. -/
theorem emptyFrom_append_le (h : ∀ filled, emptyFrom filled c ≤ emptyFrom filled d) (a : Chain)
    (filled : Bool) : emptyFrom filled (a ++ c) ≤ emptyFrom filled (a ++ d) := by
  induction a generalizing filled with
  | nil => exact h filled
  | cons x a ih =>
    simp only [List.cons_append, emptyFrom]
    split
    · exact Nat.add_le_add_left (ih false) _
    · exact ih true

/-- Components without an empty compound leave their last compound filled. -/
theorem emptyFrom_append_of_eq_zero (h : emptyFrom filled a = 0) (b : Chain) :
    emptyFrom filled (a ++ b) = emptyFrom true b := by
  induction a generalizing filled with
  | nil =>
    cases filled with
    | true => rfl
    | false => cases h
  | cons x a ih =>
    simp only [List.cons_append, emptyFrom] at h ⊢
    split at h
    · obtain ⟨hfilled, hrest⟩ := Nat.add_eq_zero_iff.1 h
      rw [if_pos ‹_›, hfilled, ih hrest, Nat.zero_add]
    · rw [if_neg ‹_›, ih h]

/-- Chains without an empty compound fill the compound they begin in and the one they end in. -/
theorem emptyFrom_append_of_emptyCompounds (hnew : emptyCompounds new = 0) (filled : Bool)
    (b : Chain) : emptyFrom filled (new ++ b) = emptyFrom true b := by
  rw [emptyCompounds_eq] at hnew
  apply emptyFrom_append_of_eq_zero
  cases filled with
  | false => exact hnew
  | true =>
    have hle := emptyFrom_true_le false new
    omega

/-! ## No empty compounds -/

/-- A chain that begins and ends with no combinator and has no two combinators side by side. -/
structure WellLinked (c : Chain) : Prop where
  leading : ∃ x ∈ c.head?, x.isCombinator = false
  trailing : ∃ x ∈ c.getLast?, x.isCombinator = false
  adjacent : c.IsChain fun x y => x.isCombinator = false ∨ y.isCombinator = false

/-- What goes on with a compound has no empty one if it begins with no combinator where the compound
has no component yet, does not end with a combinator and has no two combinators side by side. -/
theorem emptyFrom_eq_zero_iff (filled : Bool) (chain : Chain) :
    emptyFrom filled chain = 0 ↔
      (filled = false → ∃ x ∈ chain.head?, x.isCombinator = false) ∧
      (∀ x ∈ chain.getLast?, x.isCombinator = false) ∧
      chain.IsChain fun x y => x.isCombinator = false ∨ y.isCombinator = false := by
  induction chain generalizing filled with
  | nil => cases filled <;> simp [emptyFrom]
  | cons x r ih =>
    have hlast : r ≠ [] → (x :: r).getLast? = r.getLast? := by
      intro hr
      rw [← List.singleton_append, List.getLast?_append_of_ne_nil _ hr]
    by_cases hx : x.isCombinator = true
    · have hih := ih false
      cases r with
      | nil => simp [emptyFrom, hx]
      | cons y r =>
        simp only [emptyFrom, hx, if_true, Nat.add_eq_zero_iff]
        simp only [emptyFrom] at hih
        rw [hih, hlast (List.cons_ne_nil y r)]
        cases filled <;> simp [hx]
        tauto
    · have hx' : x.isCombinator = false := by simpa using hx
      have hih := ih true
      cases r with
      | nil => simp [emptyFrom, hx']
      | cons y r =>
        simp only [emptyFrom, hx', Bool.false_eq_true, if_false]
        simp only [emptyFrom] at hih
        rw [hih, hlast (List.cons_ne_nil y r)]
        simp [hx']

theorem wellLinked_iff : WellLinked chain ↔ emptyCompounds chain = 0 := by
  rw [emptyCompounds_eq, emptyFrom_eq_zero_iff]
  constructor
  · intro h
    refine ⟨fun _ => h.leading, ?_, h.adjacent⟩
    obtain ⟨x, hx, hnot⟩ := h.trailing
    intro y hy
    rwa [Option.mem_unique hy hx]
  · intro h
    obtain ⟨hleading, htrailing, hadjacent⟩ := h
    obtain ⟨x, hx, hnot⟩ := hleading rfl
    refine ⟨⟨x, hx, hnot⟩, ?_, hadjacent⟩
    cases hlast : chain.getLast? with
    | none =>
      rw [List.getLast?_eq_none_iff.1 hlast] at hx
      cases hx
    | some y => exact ⟨y, rfl, htrailing y hlast⟩

/-! ## One edit of a chain -/

theorem emptyCompounds_prepend (hnew : emptyCompounds new = 0) (chain : Chain) :
    emptyCompounds (prepend new chain) = emptyCompounds chain := by
  unfold prepend
  split
  · rfl
  · rw [emptyCompounds_eq, emptyFrom_append_of_emptyCompounds hnew, emptyFrom, emptyCompounds_eq]
    simp [Component.isCombinator, Component.combinator?]

/-- One splice, also past the end of the chain. -/
theorem emptyCompounds_splice (hnew : emptyCompounds new = 0) (i : Nat) (chain : Chain) :
    emptyCompounds (splice new i chain) ≤ emptyCompounds chain := by
  have hsplit : chain = chain.take i ++ chain.drop i := (List.take_append_drop i chain).symm
  rw [emptyCompounds_eq, emptyCompounds_eq, splice, List.append_assoc]
  conv => rhs; rw [hsplit]
  apply emptyFrom_append_le
  intro filled
  rw [emptyFrom_append_of_emptyCompounds hnew]
  cases hdrop : chain.drop i with
  | nil =>
    rw [List.drop_eq_nil_of_le (by rw [List.drop_eq_nil_iff] at hdrop; omega)]
    exact emptyFrom_true_le filled []
  | cons x b =>
    have htail : chain.drop (i + 1) = b := by
      rw [← List.tail_drop, hdrop, List.tail_cons]
    rw [htail, emptyFrom]
    split
    · -- The combinator that is replaced may stand next to empty compounds, which are gone.
      have hle := emptyFrom_true_le false b
      omega
    · exact Nat.le_refl _

theorem emptyCompounds_replaceAt (hnew : emptyCompounds new = 0) (targets : List Nat)
    (chain : Chain) : emptyCompounds (replaceAt targets new chain) ≤ emptyCompounds chain := by
  unfold replaceAt
  induction List.range chain.length with
  | nil => exact Nat.le_refl _
  | cons i is ih =>
    rw [List.foldr_cons]
    split
    · exact Nat.le_trans (emptyCompounds_splice hnew i _) ih
    · exact ih

theorem emptyCompounds_retarget (hnew : emptyCompounds new = 0) (bodyClass : String)
    (chain : Chain) :
    emptyCompounds (Chain.retarget bodyClass new chain) ≤ emptyCompounds chain := by
  unfold Chain.retarget
  split
  · exact emptyCompounds_replaceAt hnew _ chain
  · exact Nat.le_of_eq (emptyCompounds_prepend hnew chain)

/-! ## Runs of edits -/

/-- An edit of chains: of all of them, or of the one at position `i`. -/
inductive Edit where
  | wrap (ancestor : Chain)
  | prepend (i : Nat) (ancestor : Chain)
  | replace (i : Nat) (targets : List Nat) (new : Chain)
  | retarget (i : Nat) (bodyClass : String) (new : Chain)

namespace Edit

/-- The chain that an edit puts into others. -/
def inserted : Edit → Chain
  | .wrap ancestor | .prepend _ ancestor => ancestor
  | .replace _ _ new | .retarget _ _ new => new

/-- The chains after an edit. Where there is no chain at its position, nothing changes. -/
def apply : Edit → List Chain → List Chain
  | .wrap ancestor, cs => wrapAll ancestor cs
  | .prepend i ancestor, cs => cs.modify i (Chain.prepend ancestor)
  | .replace i targets new, cs => cs.modify i (replaceAt targets new)
  | .retarget i bodyClass new, cs => cs.modify i (Chain.retarget bodyClass new)

/-- The chains after edits in turn. -/
def run (es : List Edit) (cs : List Chain) : List Chain := es.foldl (fun cs e => e.apply cs) cs

/-- What the edit puts in is a chain without empty compounds. -/
def Fills (e : Edit) : Prop := e.inserted ≠ [] ∧ emptyCompounds e.inserted = 0

theorem run_append (es fs : List Edit) (cs : List Chain) : run (es ++ fs) cs = run fs (run es cs) :=
  List.foldl_append

/-- Chain by chain, the second list has no more empty compounds than the first. -/
abbrev NotEmptier (cs ds : List Chain) : Prop :=
  List.Forall₂ (fun c d => emptyCompounds d ≤ emptyCompounds c) cs ds

theorem NotEmptier.refl (cs : List Chain) : NotEmptier cs cs :=
  List.forall₂_same.2 fun _ _ => Nat.le_refl _

theorem NotEmptier.trans {as bs cs : List Chain} (h : NotEmptier as bs) (h' : NotEmptier bs cs) :
    NotEmptier as cs := by
  induction h generalizing cs with
  | nil =>
    cases h'
    exact .nil
  | cons hab _ ih =>
    cases h' with
    | cons hbc hrest => exact .cons (Nat.le_trans hbc hab) (ih hrest)

/-- A change of a single chain. -/
theorem notEmptier_modify {f : Chain → Chain} (hf : ∀ c, emptyCompounds (f c) ≤ emptyCompounds c)
    (i : Nat) (cs : List Chain) : NotEmptier cs (cs.modify i f) := by
  induction cs generalizing i with
  | nil =>
    rw [List.modify_nil]
    exact .nil
  | cons c cs ih =>
    cases i with
    | zero => exact .cons (hf c) (NotEmptier.refl cs)
    | succ i => exact .cons (Nat.le_refl _) (ih i)

/-- One edit. -/
theorem notEmptier_apply {e : Edit} (h : e.Fills) (cs : List Chain) :
    NotEmptier cs (e.apply cs) := by
  obtain ⟨-, hempty⟩ := h
  cases e with
  | wrap ancestor =>
    apply List.forall₂_map_right_iff.2
    apply List.forall₂_same.2
    intro c _
    exact Nat.le_of_eq (emptyCompounds_prepend hempty c)
  | prepend i ancestor =>
    apply notEmptier_modify
    intro c
    exact Nat.le_of_eq (emptyCompounds_prepend hempty c)
  | replace i targets new => exact notEmptier_modify (emptyCompounds_replaceAt hempty targets) i cs
  | retarget i bodyClass new =>
    exact notEmptier_modify (emptyCompounds_retarget hempty bodyClass) i cs

theorem notEmptier_run {es : List Edit} (h : ∀ e ∈ es, e.Fills) (cs : List Chain) :
    NotEmptier cs (run es cs) := by
  induction es generalizing cs with
  | nil => exact NotEmptier.refl cs
  | cons e es ih =>
    have hstep : NotEmptier cs (e.apply cs) := notEmptier_apply (h e List.mem_cons_self) cs
    exact hstep.trans (ih (fun e' he => h e' (List.mem_cons_of_mem e he)) (e.apply cs))

end Edit

open Edit

/-- Along a run of edits that put in chains without empty compounds, the number of empty compounds
of each chain never grows from one moment to a later one, and a chain without leading, trailing and
adjacent combinators stays without them. -/
theorem run_emptyCompounds {before during : List Edit} (h : ∀ e ∈ before ++ during, e.Fills)
    (cs : List Chain) :
    List.Forall₂ (fun c d => emptyCompounds d ≤ emptyCompounds c ∧ (c.WellLinked → d.WellLinked))
      (run before cs) (run (before ++ during) cs) := by
  rw [run_append]
  have hrun : NotEmptier (run before cs) (run during (run before cs)) :=
    notEmptier_run (fun e he => h e (List.mem_append_right before he)) _
  apply hrun.imp
  intro c d hle
  refine ⟨hle, ?_⟩
  rw [wellLinked_iff, wellLinked_iff]
  omega

/-- A component and a combinator are replaced, and a chain that begins with a combinator keeps its
empty compound. -/
theorem run_emptyCompounds_sample :
    let cs : List Chain :=
      [[.tag "a", .combinator .child, .tag "body"], [.combinator .child, .tag "a"]]
    let new : Chain := [.tag "u", .combinator .nextSibling, .className "body"]
    let before : List Edit := [.wrap [.className "b"]]
    let during : List Edit := [.replace 0 [4, 9, 3, 3] new, .retarget 1 "body" new]
    (∀ e ∈ before ++ during, e.Fills) ∧
      run (before ++ during) cs =
        [[.className "b", .combinator .descendant, .tag "a"] ++ new ++ new,
          new ++ [.combinator .descendant, .className "b", .combinator .descendant,
            .combinator .child, .tag "a"]] ∧
      List.Forall₂ (fun c d => emptyCompounds d ≤ emptyCompounds c ∧ (c.WellLinked → d.WellLinked))
        (run before cs) (run (before ++ during) cs) := by
  intro cs new before during
  have hfills : ∀ e ∈ before ++ during, e.Fills := by
    simp only [before, during, List.cons_append, List.nil_append, List.forall_mem_cons, Fills]
    exact ⟨⟨List.cons_ne_nil _ _, rfl⟩, ⟨List.cons_ne_nil _ _, rfl⟩, ⟨List.cons_ne_nil _ _, rfl⟩,
      fun _ h => absurd h List.not_mem_nil⟩
  exact ⟨hfills, rfl, run_emptyCompounds hfills cs⟩

end MailCss.Chain
