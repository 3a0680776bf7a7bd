import MailCss.Proofs.Css.Calm
import MailCss.Proofs.Reading.Locations

/-!
# Texts that are read on their own

A text is *read as* nodes if its lexemes nest and end with it, whatever follows, and reading it
where nothing is pending gives these nodes, up to their locations, and leaves nothing pending. Such
texts in a row are read as their nodes in a row; and in curly brackets, they are read as a block.

White space where nothing is pending is not read at all (`readTrees_ofText_spaces`).

Main statements: `ReadsAs.append`, `ReadsAs.after_spaces`, `Opens.semicolon` and `Opens.block`.
-/

namespace MailCss

open Text (Location Mark)
open Css
open Css.TokenTree (sourceAll)

/-! ## Marks and white space -/

theorem lexemes_curlyOpen (r : List Char) :
    lexemes ('\x7b' :: r) = ⟨.curlyOpen, ['\x7b']⟩ :: lexemes r :=
  lexemes_cons_of_scan rfl

theorem lexemes_curlyClose (r : List Char) :
    lexemes ('\x7d' :: r) = ⟨.curlyClose, ['\x7d']⟩ :: lexemes r :=
  lexemes_cons_of_scan rfl

theorem lexemes_semicolon (r : List Char) :
    lexemes (';' :: r) = ⟨.semicolon, [';']⟩ :: lexemes r :=
  lexemes_cons_of_scan rfl

theorem readTrees_space (m : Mark) {t : String} {w : List Char} (us : List TokenTree) :
    readTrees m .nothing (.leaf ⟨.whitespace t, w⟩ :: us) =
      readTrees (m.advance w) .nothing us := by
  rw [readTrees, readTree_between (r := {}) m rfl]
  rfl

/-- Where nothing is pending, white space is not read. -/
theorem readTrees_ofText_spaces (m : Mark) {w r : List Char} (hw : ∀ c ∈ w, isSpace c = true)
    (hr : ∀ c ∈ r.head?, isSpace c = false) :
    readTrees m .nothing (TokenTree.ofText (w ++ r)) =
      readTrees (m.advance w) .nothing (TokenTree.ofText r) := by
  by_cases hne : w = []
  · rw [hne]
    rfl
  · have hnested : Nested [⟨.whitespace (String.ofList w), w⟩]
        [.leaf ⟨.whitespace (String.ofList w), w⟩] := .leaf rfl rfl .nil
    have htrees := TokenTree.ofLexemes_append_of_nested hnested (lexemes r)
    rw [TokenTree.ofText, lexemes_spaces hw hne hr, TokenTree.ofText]
    rw [List.singleton_append] at htrees
    rw [htrees, List.singleton_append, readTrees_space]

/-- Where nothing is pending, a white space character is not read. -/
theorem readTrees_ofText_cons (m : Mark) {c : Char} (hc : isSpace c = true) (s : List Char) :
    readTrees m .nothing (TokenTree.ofText (c :: s)) =
      readTrees (m.step c) .nothing (TokenTree.ofText s) := by
  have hw : ∀ b ∈ s.takeWhile isSpace, isSpace b = true := fun b hb => List.mem_takeWhile_imp hb
  have hr : ∀ b ∈ (s.dropWhile isSpace).head?, isSpace b = false := by
    intro b hb
    rw [← Bool.not_eq_true]
    exact List.head?_dropWhile_not isSpace s |> fun h => by simpa [Option.mem_def.1 hb] using h
  have hcw : ∀ b ∈ c :: s.takeWhile isSpace, isSpace b = true := by
    intro b hb
    rcases List.mem_cons.1 hb with rfl | hb
    · exact hc
    · exact hw b hb
  -- With or without `c`, the white space at the front is one lexeme, and it is not read.
  have hself := List.takeWhile_append_dropWhile (p := isSpace) (l := s)
  have hfirst := readTrees_ofText_spaces m hcw hr
  have hsecond := readTrees_ofText_spaces (m.step c) hw hr
  rw [List.cons_append, hself] at hfirst
  rw [hself] at hsecond
  rw [hfirst, hsecond, Mark.advance_cons]

/-! ## Chunks -/

/-- The text `s` is read as the nodes `ns` on its own, wherever it stands. -/
structure ReadsAs (s : List Char) (ns : List Node) : Prop where
  firm : ∀ r, lexemes (s ++ r) = lexemes s ++ lexemes r
  trees : ∃ ts, Nested (lexemes s) ts ∧ ∀ m us, ∃ ms,
    Node.unlocatedAll ms = Node.unlocatedAll ns ∧
      readTrees m .nothing (ts ++ us) = ⟨ms, []⟩ ++ readTrees (m.advance s) .nothing us

namespace ReadsAs

variable {s t : List Char} {ns ms : List Node}

theorem nil : ReadsAs [] [] where
  firm _ := rfl
  trees := ⟨[], .nil, fun _ _ => ⟨[], rfl, rfl⟩⟩

/-- Texts that are read on their own are read in turn. -/
theorem append (hs : ReadsAs s ns) (ht : ReadsAs t ms) : ReadsAs (s ++ t) (ns ++ ms) where
  firm r := by rw [List.append_assoc, hs.firm, ht.firm, hs.firm, List.append_assoc]
  trees := by
    obtain ⟨ts, hts, hreads⟩ := hs.trees
    obtain ⟨us, hus, hreads'⟩ := ht.trees
    refine ⟨ts ++ us, ?_, ?_⟩
    · rw [hs.firm]
      exact hts.append hus
    · intro m vs
      obtain ⟨ns', hns, hread⟩ := hreads m (us ++ vs)
      obtain ⟨ms', hms, hread'⟩ := hreads' (m.advance s) vs
      refine ⟨ns' ++ ms', ?_, ?_⟩
      · rw [Node.unlocatedAll_append, Node.unlocatedAll_append, hns, hms]
      · rw [List.append_assoc, hread, hread', Mark.advance_append, ← Reading.append_assoc]
        rfl

/-- White space in front makes no difference. -/
theorem after_spaces {w : List Char} (hw : ∀ c ∈ w, isSpace c = true) (hs : ReadsAs s ns)
    (hhead : ∃ c ∈ s.head?, isSpace c = false) : ReadsAs (w ++ s) ns := by
  by_cases hne : w = []
  · rw [hne]
    exact hs
  have hr (r : List Char) : ∀ c ∈ (s ++ r).head?, isSpace c = false := by
    obtain ⟨c, hc, hspace⟩ := hhead
    obtain ⟨u, rfl⟩ := List.head?_eq_some_iff.1 hc
    rintro b ⟨⟩
    exact hspace
  have hlexemes := lexemes_spaces hw hne (by simpa using hr [])
  constructor
  · intro r
    rw [List.append_assoc, lexemes_spaces hw hne (hr r), hs.firm, hlexemes]
    rfl
  · obtain ⟨ts, hts, hreads⟩ := hs.trees
    refine ⟨.leaf ⟨.whitespace (String.ofList w), w⟩ :: ts, ?_, ?_⟩
    · rw [hlexemes]
      exact .leaf rfl rfl hts
    · intro m us
      obtain ⟨ns', hns, hread⟩ := hreads (m.advance w) us
      refine ⟨ns', hns, ?_⟩
      rw [List.cons_append, readTrees_space, hread, Mark.advance_append]

end ReadsAs

/-! ## Heads -/

/-- The text `s`, in front of a character `e`, leaves something pending that depends only on where
it begins. -/
structure Opens (s : List Char) (e : Char) (p : Location → Pending) : Prop where
  firm : ∀ r, lexemes (s ++ e :: r) = lexemes s ++ lexemes (e :: r)
  trees : ∃ ts, Nested (lexemes s) ts ∧ ∀ m us,
    readTrees m .nothing (ts ++ us) = readTrees (m.advance s) (p m.location) us

namespace Opens

variable {s : List Char} {p : Location → Pending} {n : Node}

/-- A head that a semicolon ends is read as its node. -/
theorem semicolon (h : Opens s ';' p)
    (hn : ∀ l, ∃ n', Node.unlocatedAll [n'] = Node.unlocatedAll [n] ∧
      (p l).finish = .node n') : ReadsAs (s ++ [';']) [n] := by
  have hlexemes (r : List Char) :
      lexemes (s ++ ';' :: r) = lexemes s ++ ⟨.semicolon, [';']⟩ :: lexemes r := by
    rw [h.firm, lexemes_semicolon]
  constructor
  · intro r
    rw [List.append_assoc, List.singleton_append, hlexemes, hlexemes []]
    simp [lexemes, lexemesAfter]
  · obtain ⟨ts, hts, hreads⟩ := h.trees
    refine ⟨ts ++ [.leaf ⟨.semicolon, [';']⟩], ?_, ?_⟩
    · rw [hlexemes []]
      exact hts.append (.leaf rfl rfl .nil)
    · intro m us
      obtain ⟨n', hn', hfinish⟩ := hn m.location
      refine ⟨[n'], hn', ?_⟩
      rw [List.append_assoc, hreads, List.singleton_append, readTrees, readTree_semicolon _ _ rfl,
        hfinish, Mark.advance_append]
      rfl

/-- A head in front of a block is read as the node with the nodes that the text in the block is
read as. -/
theorem block (h : Opens s '\x7b' p) {t w : List Char} {ns : List Node} (ht : ReadsAs t ns)
    (hw : ∀ c ∈ w, isSpace c = true) (hne : w ≠ [])
    (hn : ∀ l here ms, Node.unlocatedAll ms = Node.unlocatedAll ns →
      Node.unlocatedAll [(p l).finishBlock here ms] = Node.unlocatedAll [n]) :
    ReadsAs (s ++ '\x7b' :: (t ++ (w ++ ['\x7d']))) [n] := by
  have hlexemes (r : List Char) : lexemes (s ++ '\x7b' :: (t ++ (w ++ '\x7d' :: r))) =
      lexemes s ++ ⟨.curlyOpen, ['\x7b']⟩ :: ((lexemes t ++ [⟨.whitespace (String.ofList w), w⟩]) ++
        ⟨.curlyClose, ['\x7d']⟩ :: lexemes r) := by
    rw [h.firm, lexemes_curlyOpen, ht.firm, lexemes_spaces hw hne (by rintro c ⟨⟩; rfl),
      lexemes_curlyClose, List.append_assoc]
    rfl
  constructor
  · intro r
    have hread := hlexemes r
    simp only [List.append_assoc, List.cons_append, List.nil_append] at hread ⊢
    rw [hread, hlexemes []]
    simp [lexemes, lexemesAfter]
  · obtain ⟨ts, hts, hreads⟩ := h.trees
    obtain ⟨us, hus, hreads'⟩ := ht.trees
    have hspace : Nested [⟨.whitespace (String.ofList w), w⟩]
        [.leaf ⟨.whitespace (String.ofList w), w⟩] := .leaf rfl rfl .nil
    refine ⟨ts ++ [.group ⟨.curlyOpen, ['\x7b']⟩
      (us ++ [.leaf ⟨.whitespace (String.ofList w), w⟩]) ['\x7d']], ?_, ?_⟩
    · rw [hlexemes []]
      exact hts.append (.group rfl (hus.append hspace) .nil)
    · intro m vs
      obtain ⟨ms, hms, hread⟩ := hreads' ((m.advance s).advance ['\x7b'])
        [.leaf ⟨.whitespace (String.ofList w), w⟩]
      rw [readTrees_space, readTrees, Pending.finish, Reading.append_nothing] at hread
      refine ⟨[(p m.location).finishBlock (m.advance s).location ms], hn _ _ ms hms, ?_⟩
      -- Reading goes on behind the whole group, from the mark behind its text.
      have hsource : TokenTree.source (.group ⟨.curlyOpen, ['\x7b']⟩
          (us ++ [.leaf ⟨.whitespace (String.ofList w), w⟩]) ['\x7d']) =
            '\x7b' :: (t ++ (w ++ ['\x7d'])) := by
        rw [TokenTree.source, TokenTree.sourceAll_append, hus.sourceAll_eq, lexemes_source]
        simp [sourceAll, TokenTree.source]
      rw [List.append_assoc, hreads, List.singleton_append, readTrees, readTree_block _ _ _ _ rfl,
        hsource, hread, Mark.advance_append]

end Opens

end MailCss
