import MailCss.Proofs.Css.Scan

/-!
# The trees of a text

What holds of all token trees that a text has. The lexemes in them are lexemes of the text, a leaf
opens no group, a group is opened by a token that opens one and is closed by a bracket of its own
kind, and a group that is not closed stands at the end of its level.

Main statements: `soundAll_ofText` and `madeOf_of_mem_ofText`.
-/

namespace MailCss.Css

/-! ## Sound trees -/

namespace TokenTree

/-- Whether a tree is no group or has its closing bracket. -/
def IsClosed : TokenTree → Prop
  | .leaf _ => True
  | .group _ _ closer => closer ≠ []

mutual

/-- A tree made of lexemes that are read, with brackets of one kind around a group. -/
def Sound : TokenTree → Prop
  | .leaf x => x.IsRead ∧ x.token.closer? = none
  | .group x inner closer => x.IsRead ∧ SoundAll inner ∧ ∃ t, x.token.closer? = some t ∧
      (closer = [] ∨ ∃ y : Lexeme, y.IsRead ∧ y.token = t ∧ closer = y.source)

/-- Sound trees on one level, of which only the last may lack its closing bracket. -/
def SoundAll : List TokenTree → Prop
  | [] => True
  | t :: ts => t.Sound ∧ (ts ≠ [] → t.IsClosed) ∧ SoundAll ts

end

/-- A closed group has the closing mark of its kind. -/
theorem Sound.closer_eq {x : Lexeme} {inner : List TokenTree} {closer : List Char}
    (h : Sound (.group x inner closer)) (hclosed : IsClosed (.group x inner closer)) :
    ∃ d, x.token.closingMark? = some d ∧ closer = [d] := by
  rw [Sound] at h
  obtain ⟨_, _, t, ht, rfl | ⟨y, hread, rfl, rfl⟩⟩ := h
  · exact absurd rfl hclosed
  · obtain ⟨d, hd, hy⟩ := Token.closingMark?_of_closer? ht
    exact ⟨d, hd, hread.source_of_mark? hy⟩

theorem Sound.head_isRead {t : TokenTree} (h : t.Sound) : t.head.IsRead := by
  cases t <;> rw [Sound] at h <;> exact h.1

theorem head_source_prefix (t : TokenTree) : t.head.source <+: t.source := by
  cases t with
  | leaf x => exact List.prefix_refl _
  | group x inner closer => exact ⟨sourceAll inner ++ closer, rfl⟩

/-- A tree has a text, which begins with white space only if the tree is white space. -/
theorem Sound.exists_source {t : TokenTree} (h : t.Sound) :
    ∃ c s, t.source = c :: s ∧ (t.token.isSkipped = false → isSpace c = false) := by
  obtain ⟨c, r, hread⟩ := h.head_isRead
  obtain ⟨w, hw⟩ := exists_scan_source c r
  obtain ⟨v, hv⟩ := t.head_source_prefix
  rw [hread, hw] at hv
  refine ⟨c, w ++ v, hv.symm, fun hskip => ?_⟩
  rw [← Bool.not_eq_true]
  intro hspace
  rw [token, hread] at hskip
  simp [scan, hspace, Token.isSkipped] at hskip

theorem SoundAll.of_append {ts us : List TokenTree} (h : SoundAll (ts ++ us)) : SoundAll us := by
  induction ts with
  | nil => exact h
  | cons t ts ih =>
    rw [List.cons_append, SoundAll] at h
    exact ih h.2.2

theorem SoundAll.sound {ts : List TokenTree} (h : SoundAll ts) : ∀ t ∈ ts, t.Sound := by
  induction ts with
  | nil => simp
  | cons t ts ih =>
    rw [SoundAll] at h
    exact List.forall_mem_cons.2 ⟨h.1, ih h.2.2⟩

/-- Behind sound and closed trees, sound trees are sound. -/
theorem soundAll_append {ts us : List TokenTree} (hts : ∀ t ∈ ts, t.Sound ∧ t.IsClosed)
    (hus : SoundAll us) : SoundAll (ts ++ us) := by
  induction ts with
  | nil => exact hus
  | cons t ts ih =>
    obtain ⟨hsound, hclosed⟩ := hts t List.mem_cons_self
    rw [List.cons_append, SoundAll]
    exact ⟨hsound, fun _ => hclosed, ih fun u hu => hts u (List.mem_cons_of_mem _ hu)⟩

end TokenTree

namespace Builder

open TokenTree

/-- A builder all of whose finished trees are sound and closed, and whose open groups are opened by
tokens that open groups. -/
structure Sound (b : Builder) : Prop where
  done : ∀ t ∈ b.done, t.Sound ∧ t.IsClosed
  before : ∀ f ∈ b.frames, ∀ t ∈ f.before, t.Sound ∧ t.IsClosed
  opener : ∀ f ∈ b.frames, f.opener.IsRead ∧ f.opener.token.closer?.isSome = true

theorem sound_nil : Sound {} where
  done := by simp
  before := by simp
  opener := by simp

/-- Reading one more lexeme keeps a builder sound. -/
theorem Sound.feed {b : Builder} (h : b.Sound) {x : Lexeme} (hx : x.IsRead) :
    (b.feed x).Sound := by
  obtain ⟨frames, done⟩ := b
  rw [Builder.feed]
  split
  · rename_i hcloses
    cases frames with
    | nil => cases hcloses
    | cons f fs =>
      -- The group that ends here: what is in it is closed, and it is closed by `x`.
      have hcloser : f.opener.token.closer? = some x.token := by simpa [closes] using hcloses
      have hinner : SoundAll done.reverse := by
        have hall : SoundAll (done.reverse ++ []) :=
          soundAll_append (fun t ht => h.done t (List.mem_reverse.1 ht)) trivial
        simpa using hall
      have hgroup : TokenTree.Sound (.group f.opener done.reverse x.source) := by
        rw [TokenTree.Sound]
        exact ⟨(h.opener f List.mem_cons_self).1, hinner, _, hcloser, .inr ⟨x, hx, rfl, rfl⟩⟩
      have hclosed : IsClosed (.group f.opener done.reverse x.source) := hx.source_ne_nil
      refine ⟨?_, fun g hg => h.before g (List.mem_cons_of_mem _ hg),
        fun g hg => h.opener g (List.mem_cons_of_mem _ hg)⟩
      intro t ht
      rcases List.mem_cons.1 ht with rfl | ht
      · exact ⟨hgroup, hclosed⟩
      · exact h.before f List.mem_cons_self t ht
  · split
    · rename_i hopen
      refine ⟨by simp, ?_, ?_⟩
      · intro g hg
        rcases List.mem_cons.1 hg with rfl | hg
        · exact h.done
        · exact h.before g hg
      · intro g hg
        rcases List.mem_cons.1 hg with rfl | hg
        · exact ⟨hx, hopen⟩
        · exact h.opener g hg
    · rename_i hopen
      refine ⟨?_, h.before, h.opener⟩
      intro t ht
      rcases List.mem_cons.1 ht with rfl | ht
      · refine ⟨?_, trivial⟩
        rw [TokenTree.Sound]
        exact ⟨hx, by simpa using hopen⟩
      · exact h.done t ht

theorem Sound.foldl_feed {b : Builder} (h : b.Sound) {xs : List Lexeme}
    (hxs : ∀ x ∈ xs, x.IsRead) : (xs.foldl Builder.feed b).Sound := by
  induction xs generalizing b with
  | nil => exact h
  | cons x xs ih =>
    rw [List.foldl_cons]
    exact ih (h.feed (hxs x List.mem_cons_self)) fun y hy => hxs y (List.mem_cons_of_mem _ hy)

/-- Where the text ends, the innermost group is the last tree of the level around it. -/
theorem soundAll_finishWith {last done : List TokenTree} {fs : List Frame}
    (hlast : SoundAll last) (hdone : ∀ t ∈ done, t.Sound ∧ t.IsClosed)
    (hbefore : ∀ f ∈ fs, ∀ t ∈ f.before, t.Sound ∧ t.IsClosed)
    (hopener : ∀ f ∈ fs, f.opener.IsRead ∧ f.opener.token.closer?.isSome = true) :
    SoundAll (finishWith (last.reverse ++ done) fs) := by
  have hlevel : SoundAll (done.reverse ++ last) :=
    soundAll_append (fun t ht => hdone t (List.mem_reverse.1 ht)) hlast
  induction fs generalizing last done with
  | nil => simpa [finishWith] using hlevel
  | cons f fs ih =>
    obtain ⟨hread, hopen⟩ := hopener f List.mem_cons_self
    obtain ⟨t, ht⟩ := Option.isSome_iff_exists.1 hopen
    have hgroup : SoundAll [.group f.opener (done.reverse ++ last) []] := by
      rw [SoundAll, TokenTree.Sound]
      exact ⟨⟨hread, hlevel, t, ht, .inl rfl⟩, fun h => absurd rfl h, trivial⟩
    have hf := hbefore f List.mem_cons_self
    have hrest := ih hgroup hf (fun g hg => hbefore g (List.mem_cons_of_mem _ hg))
      (fun g hg => hopener g (List.mem_cons_of_mem _ hg))
      (soundAll_append (fun t ht => hf t (List.mem_reverse.1 ht)) hgroup)
    simpa [finishWith] using hrest

end Builder

/-- The token trees of a text are sound. -/
theorem TokenTree.soundAll_ofText (s : List Char) : SoundAll (ofText s) := by
  have h := Builder.sound_nil.foldl_feed fun x hx => isRead_of_mem_lexemes (s := s) hx
  have hlast : SoundAll [] := trivial
  exact Builder.soundAll_finishWith hlast h.done h.before h.opener

/-! ## The lexemes of trees -/

namespace TokenTree

mutual

/-- A tree of lexemes among `xs`. -/
def MadeOf (xs : List Lexeme) : TokenTree → Prop
  | .leaf x => x ∈ xs
  | .group x inner _ => x ∈ xs ∧ AllMadeOf xs inner

/-- Trees of lexemes among `xs`. -/
def AllMadeOf (xs : List Lexeme) : List TokenTree → Prop
  | [] => True
  | t :: ts => t.MadeOf xs ∧ AllMadeOf xs ts

end

theorem allMadeOf_iff {xs : List Lexeme} {ts : List TokenTree} :
    AllMadeOf xs ts ↔ ∀ t ∈ ts, t.MadeOf xs := by
  induction ts with
  | nil => simp [AllMadeOf]
  | cons t ts ih => simp [AllMadeOf, ih]

theorem MadeOf.head_mem {xs : List Lexeme} {t : TokenTree} (h : t.MadeOf xs) : t.head ∈ xs := by
  cases t with
  | leaf x =>
    rw [MadeOf] at h
    exact h
  | group x inner closer =>
    rw [MadeOf] at h
    exact h.1

end TokenTree

namespace Builder

open TokenTree

/-- A builder all of whose trees, finished or not, are made of lexemes among `xs`. -/
structure MadeOf (xs : List Lexeme) (b : Builder) : Prop where
  done : ∀ t ∈ b.done, t.MadeOf xs
  before : ∀ f ∈ b.frames, ∀ t ∈ f.before, t.MadeOf xs
  opener : ∀ f ∈ b.frames, f.opener ∈ xs

variable {xs : List Lexeme}

theorem MadeOf.feed {b : Builder} (h : b.MadeOf xs) {x : Lexeme} (hx : x ∈ xs) :
    (b.feed x).MadeOf xs := by
  obtain ⟨frames, done⟩ := b
  rw [Builder.feed]
  split
  · rename_i hcloses
    cases frames with
    | nil => cases hcloses
    | cons f fs =>
      have hgroup : TokenTree.MadeOf xs (.group f.opener done.reverse x.source) := by
        rw [TokenTree.MadeOf, allMadeOf_iff]
        exact ⟨h.opener f List.mem_cons_self, fun t ht => h.done t (List.mem_reverse.1 ht)⟩
      refine ⟨?_, fun g hg => h.before g (List.mem_cons_of_mem _ hg),
        fun g hg => h.opener g (List.mem_cons_of_mem _ hg)⟩
      exact List.forall_mem_cons.2 ⟨hgroup, h.before f List.mem_cons_self⟩
  · split
    · exact ⟨by simp, List.forall_mem_cons.2 ⟨h.done, h.before⟩,
        List.forall_mem_cons.2 ⟨hx, h.opener⟩⟩
    · refine ⟨List.forall_mem_cons.2 ⟨?_, h.done⟩, h.before, h.opener⟩
      rwa [TokenTree.MadeOf]

theorem MadeOf.foldl_feed {b : Builder} (h : b.MadeOf xs) {ys : List Lexeme} (hys : ∀ y ∈ ys, y ∈ xs) :
    (ys.foldl Builder.feed b).MadeOf xs := by
  induction ys generalizing b with
  | nil => exact h
  | cons y ys ih =>
    obtain ⟨hy, hys⟩ := List.forall_mem_cons.1 hys
    exact ih (h.feed hy) hys

theorem madeOf_of_mem_finishWith {done : List TokenTree} {fs : List Frame}
    (h : (Builder.mk fs done).MadeOf xs) : ∀ t ∈ finishWith done fs, t.MadeOf xs := by
  induction fs generalizing done with
  | nil => exact fun t ht => h.done t (List.mem_reverse.1 ht)
  | cons f fs ih =>
    refine ih ⟨List.forall_mem_cons.2 ⟨?_, h.before f List.mem_cons_self⟩,
      fun g hg => h.before g (List.mem_cons_of_mem _ hg),
      fun g hg => h.opener g (List.mem_cons_of_mem _ hg)⟩
    rw [TokenTree.MadeOf, allMadeOf_iff]
    exact ⟨h.opener f List.mem_cons_self, fun t ht => h.done t (List.mem_reverse.1 ht)⟩

end Builder

/-- The token trees of a text are made of its lexemes. -/
theorem TokenTree.madeOf_of_mem_ofText {s : List Char} {t : TokenTree} (ht : t ∈ ofText s) :
    t.MadeOf (lexemes s) := by
  have hnil : Builder.MadeOf (lexemes s) {} := ⟨by simp, by simp, by simp⟩
  exact Builder.madeOf_of_mem_finishWith (hnil.foldl_feed fun _ hx => hx) t ht

end MailCss.Css
