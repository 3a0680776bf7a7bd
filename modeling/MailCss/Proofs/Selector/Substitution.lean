import Mathlib.Data.List.Dedup
import MailCss.Selector.Edit

/-!
# Replacing components all at once

Replacing the components at several positions of a chain splices one after the other, and a splice
changes the length of the chain. As the last position comes first, each splice still finds its
component where it was at first. So the result is the chain with every one of these components
replaced and all others kept (`substitute`), in whatever order the positions are given, however
often each is named, and also where some of them are out of range.

Retargeting replaces a single component in this way, which is the first anchor, or puts the
replacement in front as an ancestor.

Main statement: `retarget_substitutes`.
-/

namespace MailCss.Chain

/-! ## Substitution -/

/-- The chain, whose positions are counted from `k`, with `new` in the place of every component at a
position in `targets`. -/
def substituteFrom (k : Nat) (targets : List Nat) (new chain : Chain) : Chain :=
  (chain.zipIdx k).flatMap fun p => if p.2 ∈ targets then new else [p.1]

/-- The chain with `new` in the place of every component at a position in `targets`. -/
def substitute (targets : List Nat) (new chain : Chain) : Chain :=
  substituteFrom 0 targets new chain

variable {targets targets' : List Nat} {new chain : Chain} {k : Nat}

theorem substituteFrom_append (a b : Chain) :
    substituteFrom k targets new (a ++ b) =
      substituteFrom k targets new a ++ substituteFrom (k + a.length) targets new b := by
  simp [substituteFrom, List.zipIdx_append]

theorem substituteFrom_cons (x : Component) (b : Chain) :
    substituteFrom k targets new (x :: b) =
      (if k ∈ targets then new else [x]) ++ substituteFrom (k + 1) targets new b := by
  simp [substituteFrom, List.zipIdx_cons]

/-- Only the positions in range count. -/
theorem substituteFrom_congr
    (h : ∀ j, k ≤ j → j < k + chain.length → (j ∈ targets ↔ j ∈ targets')) :
    substituteFrom k targets new chain = substituteFrom k targets' new chain := by
  induction chain generalizing k with
  | nil => rfl
  | cons x b ih =>
    rw [List.length_cons] at h
    have hhead : k ∈ targets ↔ k ∈ targets' := h k (Nat.le_refl k) (by omega)
    rw [substituteFrom_cons, substituteFrom_cons, ih]
    · simp only [hhead]
    · intro j hj hlt
      exact h j (by omega) (by omega)

/-- Without positions in range, the chain stays as it is. -/
theorem substituteFrom_of_forall_not_mem (h : ∀ j, k ≤ j → j < k + chain.length → j ∉ targets) :
    substituteFrom k targets new chain = chain := by
  have hnone : substituteFrom k targets new chain = substituteFrom k [] new chain := by
    apply substituteFrom_congr
    intro j hj hlt
    simp [h j hj hlt]
  rw [hnone]
  simp only [substituteFrom, List.not_mem_nil, if_false]
  rw [← List.map_eq_flatMap, List.zipIdx_map_fst]

/-- The chain is as it was up to the first of the positions. -/
theorem exists_substitute {i : Nat} {is : List Nat} (his : ∀ j ∈ is, i < j)
    (hi : i < chain.length) (new : Chain) :
    ∃ a x b, a.length = i ∧ substitute is new chain = a ++ x :: b ∧
      substitute (i :: is) new chain = a ++ new ++ b := by
  have hlength : (chain.take i).length = i := by
    rw [List.length_take]
    omega
  have hsplit : chain = chain.take i ++ chain[i] :: chain.drop (i + 1) := by simp
  have hfront (ts : List Nat) (hts : ∀ j ∈ ts, i ≤ j) :
      substituteFrom 0 ts new (chain.take i) = chain.take i := by
    apply substituteFrom_of_forall_not_mem
    intro j _ hlt hj
    have hle := hts j hj
    omega
  -- Behind `i`, the position `i` is out of range.
  have hback : substituteFrom (i + 1) (i :: is) new (chain.drop (i + 1)) =
      substituteFrom (i + 1) is new (chain.drop (i + 1)) := by
    apply substituteFrom_congr
    intro j hj _
    simp only [List.mem_cons]
    constructor
    · rintro (hji | hmem)
      · omega
      · exact hmem
    · exact Or.inr
  have hnot : i ∉ is := fun hmem => Nat.lt_irrefl i (his i hmem)
  refine ⟨chain.take i, chain[i], substituteFrom (i + 1) is new (chain.drop (i + 1)), hlength,
    ?_, ?_⟩
  · unfold substitute
    conv => lhs; rw [hsplit]
    rw [substituteFrom_append, substituteFrom_cons, hlength, Nat.zero_add, if_neg hnot,
      hfront is fun j hj => Nat.le_of_lt (his j hj)]
    rfl
  · unfold substitute
    conv => lhs; rw [hsplit]
    rw [substituteFrom_append, substituteFrom_cons, hlength, Nat.zero_add, if_pos (by simp), hback,
      hfront]
    · simp
    · intro j hj
      rcases List.mem_cons.1 hj with hji | hmem
      · omega
      · exact Nat.le_of_lt (his j hmem)

/-! ## Splicing from the last position to the first -/

/-- Splices at each of the positions in range, of which the last in the list comes first. Whether a
position is in range is seen from the chain as it then is. -/
def spliceEach (positions : List Nat) (new chain : Chain) : Chain :=
  positions.foldr (fun i c => if i < c.length then splice new i c else c) chain

/-- The positions in rising order, each of them once. -/
def inOrder (targets : List Nat) : List Nat := (targets.mergeSort (· ≤ ·)).dedup

theorem mem_inOrder {i : Nat} : i ∈ inOrder targets ↔ i ∈ targets := by
  rw [inOrder, List.mem_dedup, List.mem_mergeSort]

theorem pairwise_inOrder (targets : List Nat) : (inOrder targets).Pairwise (· < ·) := by
  have hsorted : (targets.mergeSort (· ≤ ·)).Pairwise (· ≤ ·) := by
    have h := @List.pairwise_mergeSort Nat (fun a b => decide (a ≤ b))
      (by simp only [decide_eq_true_eq]; omega)
      (by simp only [Bool.or_eq_true, decide_eq_true_eq]; omega) targets
    simpa only [decide_eq_true_eq] using h
  have hle : (inOrder targets).Pairwise (· ≤ ·) := hsorted.sublist (List.dedup_sublist _)
  have hne : (inOrder targets).Pairwise (· ≠ ·) := List.nodup_dedup _
  apply hle.imp₂ _ hne
  intro a b hab hnot
  omega

theorem splice_append (a b : Chain) (x : Component) :
    splice new a.length (a ++ x :: b) = a ++ new ++ b := by
  simp [splice]

/-- Splicing at rising positions is substitution, as what is spliced first stands last. -/
theorem spliceEach_eq_substitute {positions : List Nat} (h : positions.Pairwise (· < ·)) :
    spliceEach positions new chain = substitute positions new chain := by
  induction positions with
  | nil =>
    symm
    apply substituteFrom_of_forall_not_mem
    intro j _ _
    exact List.not_mem_nil
  | cons i is ih =>
    obtain ⟨his, hpairwise⟩ := List.pairwise_cons.1 h
    have hrest := ih hpairwise
    unfold spliceEach at hrest ⊢
    rw [List.foldr_cons, hrest]
    by_cases hi : i < chain.length
    · obtain ⟨a, x, b, rfl, hbehind, hall⟩ := exists_substitute his hi new
      rw [hbehind, hall, if_pos (by simp), splice_append]
    · -- All positions are out of range.
      have hnone (ts : List Nat) (hts : ∀ j ∈ ts, i ≤ j) : substitute ts new chain = chain := by
        apply substituteFrom_of_forall_not_mem
        intro j _ hlt hj
        have hle := hts j hj
        omega
      rw [hnone is fun j hj => Nat.le_of_lt (his j hj), if_neg hi, hnone]
      intro j hj
      rcases List.mem_cons.1 hj with hji | hmem
      · omega
      · exact Nat.le_of_lt (his j hmem)

/-- Where all positions are in range, they stay so. -/
theorem foldr_splice {positions : List Nat} (h : positions.Pairwise (· < ·))
    (hrange : ∀ i ∈ positions, i < chain.length) :
    positions.foldr (splice new) chain = spliceEach positions new chain := by
  induction positions with
  | nil => rfl
  | cons i is ih =>
    obtain ⟨his, hpairwise⟩ := List.pairwise_cons.1 h
    have hrest := ih hpairwise fun j hj => hrange j (List.mem_cons_of_mem i hj)
    have hi := hrange i List.mem_cons_self
    obtain ⟨a, x, b, rfl, hbehind, -⟩ := exists_substitute his hi new
    have hlt : a.length < (spliceEach is new chain).length := by
      rw [spliceEach_eq_substitute hpairwise, hbehind]
      simp
    rw [List.foldr_cons, hrest]
    exact (if_pos hlt).symm

/-- Replacing one component after the other is substitution. -/
theorem replaceAt_eq_substitute (targets : List Nat) (new chain : Chain) :
    replaceAt targets new chain = substitute targets new chain := by
  let positions := (List.range chain.length).filter (· ∈ targets)
  have hpairwise : positions.Pairwise (· < ·) := List.pairwise_lt_range.filter _
  have hfold : replaceAt targets new chain = positions.foldr (splice new) chain := by
    unfold positions
    rw [List.foldr_filter, replaceAt]
    simp only [decide_eq_true_eq]
  rw [hfold, foldr_splice hpairwise, spliceEach_eq_substitute hpairwise]
  · apply substituteFrom_congr
    intro j _ hlt
    rw [Nat.zero_add] at hlt
    simp [positions, hlt]
  · intro i hi
    exact List.mem_range.1 (List.mem_of_mem_filter hi)

/-! ## Retargeting -/

/-- No component is an anchor. -/
def NoAnchor (bodyClass : String) (c : Chain) : Prop := ∀ x ∈ c, x.isAnchor bodyClass = false

variable {bodyClass : String}

theorem retarget_of_noAnchor (h : NoAnchor bodyClass chain) (new : Chain) :
    Chain.retarget bodyClass new chain = prepend new chain := by
  rw [Chain.retarget, List.findIdx?_eq_none_iff.2 h]

/-- The replacement takes the place of the anchor. -/
theorem retarget_append {c b : Chain} {x : Component} (hc : NoAnchor bodyClass c)
    (hx : x.isAnchor bodyClass = true) (new : Chain) :
    Chain.retarget bodyClass new (c ++ x :: b) = c ++ new ++ b := by
  have hindex : (c ++ x :: b).findIdx? (Component.isAnchor bodyClass) = some c.length := by
    rw [List.findIdx?_append, List.findIdx?_eq_none_iff.2 hc]
    simp [List.findIdx?_cons, hx]
  have hlt : c.length < (c ++ x :: b).length := by simp
  rw [Chain.retarget, hindex]
  show replaceAt [c.length] new (c ++ x :: b) = _
  rw [replaceAt_eq_substitute, ← spliceEach_eq_substitute (List.pairwise_singleton _ _), spliceEach,
    List.foldr_cons, List.foldr_nil, if_pos hlt, splice_append]

/-- The anchors of a chain, by number. -/
def anchors (bodyClass : String) (chain : Chain) : Nat :=
  chain.countP (Component.isAnchor bodyClass)

theorem anchors_append (a b : Chain) :
    anchors bodyClass (a ++ b) = anchors bodyClass a + anchors bodyClass b :=
  List.countP_append

theorem anchors_cons_of_isAnchor {x : Component} (hx : x.isAnchor bodyClass = true) (b : Chain) :
    anchors bodyClass (x :: b) = anchors bodyClass b + 1 :=
  List.countP_cons_of_pos hx

theorem anchors_of_noAnchor (h : NoAnchor bodyClass chain) : anchors bodyClass chain = 0 := by
  unfold anchors
  rw [List.countP_eq_zero]
  intro x hx
  rw [h x hx]
  exact Bool.false_ne_true

/-- A chain that has an anchor has a first one. -/
theorem exists_first_anchor (h : ¬ NoAnchor bodyClass chain) :
    ∃ a x b, chain = a ++ x :: b ∧ NoAnchor bodyClass a ∧ x.isAnchor bodyClass = true := by
  cases hfind : chain.find? (Component.isAnchor bodyClass) with
  | none =>
    rw [List.find?_eq_none] at hfind
    exact absurd (fun x hx => by simpa using hfind x hx) h
  | some x =>
    obtain ⟨hx, a, b, hchain, ha⟩ := List.find?_eq_some_iff_append.1 hfind
    refine ⟨a, x, b, hchain, ?_, hx⟩
    intro y hy
    simpa using ha y hy

/-- One anchor of a chain goes, if there is one, and those of the replacement come. -/
theorem anchors_retarget (hnew : new ≠ []) (chain : Chain) :
    anchors bodyClass (Chain.retarget bodyClass new chain) =
      anchors bodyClass new + (anchors bodyClass chain - 1) := by
  by_cases h : NoAnchor bodyClass chain
  · have hcombinator : NoAnchor bodyClass [.combinator .descendant] := by
      intro x hx
      rw [List.mem_singleton.1 hx]
      rfl
    have hprepend : prepend new chain = new ++ .combinator .descendant :: chain := by
      unfold prepend
      rw [if_neg (by simpa using hnew)]
    rw [retarget_of_noAnchor h, hprepend, anchors_append, ← List.singleton_append, anchors_append,
      anchors_of_noAnchor h, anchors_of_noAnchor hcombinator]
  · obtain ⟨a, x, b, rfl, ha, hx⟩ := exists_first_anchor h
    rw [retarget_append ha hx, anchors_append, anchors_append, anchors_append,
      anchors_cons_of_isAnchor hx, anchors_of_noAnchor ha]
    omega

/-- The anchors are the type selector of the body element and the class that stands for it. -/
theorem isAnchor_iff {x : Component} :
    x.isAnchor bodyClass = true ↔ x = .tag "body" ∨ x = .className bodyClass := by
  cases x <;> simp [Component.isAnchor, Component.isBodyTag, Component.isBodyClass]

theorem noAnchor_iff :
    NoAnchor bodyClass chain ↔ .tag "body" ∉ chain ∧ .className bodyClass ∉ chain := by
  have hnot {x : Component} :
      x.isAnchor bodyClass = false ↔ ¬ (x = .tag "body" ∨ x = .className bodyClass) := by
    rw [← isAnchor_iff, Bool.not_eq_true]
  unfold NoAnchor
  simp only [hnot, not_or]
  constructor
  · intro h
    exact ⟨fun hmem => (h _ hmem).1 rfl, fun hmem => (h _ hmem).2 rfl⟩
  · intro h x hx
    exact ⟨fun heq => h.1 (heq ▸ hx), fun heq => h.2 (heq ▸ hx)⟩

/-- Replacing components one after the other, from the last of the positions to the first, replaces
them all at once. Hence retargeting puts the replacement in the place of the first anchor and keeps
everything else, or puts it in front as an ancestor where there is none; and one anchor goes, if
there is one, for those of the replacement. -/
theorem retarget_substitutes (targets : List Nat) (bodyClass : String) (new chain : Chain) :
    replaceAt targets new chain = substitute targets new chain ∧
      spliceEach (inOrder targets) new chain = substitute targets new chain ∧
      (new ≠ [] →
        (∀ a x b, chain = a ++ x :: b → x = .tag "body" ∨ x = .className bodyClass →
          .tag "body" ∉ a → .className bodyClass ∉ a →
          Chain.retarget bodyClass new chain = a ++ new ++ b) ∧
        (.tag "body" ∉ chain → .className bodyClass ∉ chain →
          Chain.retarget bodyClass new chain = new ++ .combinator .descendant :: chain) ∧
        anchors bodyClass (Chain.retarget bodyClass new chain) =
          anchors bodyClass new + (anchors bodyClass chain - 1)) := by
  refine ⟨replaceAt_eq_substitute targets new chain, ?_, fun hnew => ⟨?_, ?_, ?_⟩⟩
  · rw [spliceEach_eq_substitute (pairwise_inOrder targets)]
    apply substituteFrom_congr
    intro j _ _
    exact mem_inOrder
  · intro a x b hchain hx htag hclass
    rw [hchain]
    exact retarget_append (noAnchor_iff.2 ⟨htag, hclass⟩) (isAnchor_iff.2 hx) new
  · intro htag hclass
    rw [retarget_of_noAnchor (noAnchor_iff.2 ⟨htag, hclass⟩), prepend, if_neg (by simpa using hnew)]
  · exact anchors_retarget hnew chain

/-- The positions are out of order, one is named twice and one is out of range; of two anchors the
first goes, and with another class standing for the body element there is none. -/
theorem retarget_substitutes_sample :
    let chain : Chain := [.className "a", .combinator .child, .className "body", .className "body"]
    let new : Chain := [.tag "u", .combinator .nextSibling, .className "body"]
    replaceAt [3, 0, 9, 3] new chain =
        new ++ [.combinator .child, .className "body"] ++ new ∧
      spliceEach (inOrder [3, 0, 9, 3]) new chain =
        new ++ [.combinator .child, .className "body"] ++ new ∧
      Chain.retarget "body" new chain =
        [.className "a", .combinator .child] ++ new ++ [.className "body"] ∧
      anchors "body" (Chain.retarget "body" new chain) = 2 ∧
      Chain.retarget "wrapper" new chain = new ++ .combinator .descendant :: chain := by
  intro chain new
  have hnew : new ≠ [] := List.cons_ne_nil _ _
  obtain ⟨hreplace, hsplice, hretarget⟩ := retarget_substitutes [3, 0, 9, 3] "body" new chain
  obtain ⟨hfirst, -, hanchors⟩ := hretarget hnew
  obtain ⟨-, -, hother⟩ := retarget_substitutes [] "wrapper" new chain
  refine ⟨hreplace.trans rfl, hsplice.trans rfl, ?_, hanchors.trans rfl, ?_⟩
  · exact hfirst [.className "a", .combinator .child] (.className "body") [.className "body"] rfl
      (Or.inr rfl) (by simp) (by simp)
  · exact (hother hnew).2.1 (by simp [chain]) (by simp [chain])

end MailCss.Chain
