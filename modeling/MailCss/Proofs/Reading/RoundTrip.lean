import MailCss.Proofs.Reading.Heads
import MailCss.Stylesheet.Printer

/-!
# Reading what was written

Reading a plain style sheet that was written, with any text behind it, gives its nodes up to their
locations, and behind them what reading that text gives, moved down by the lines that were written.
Nothing of what was written is skipped.

Every line is taken with the line break in front of it: then the white space between two nodes
belongs to the second one, each node is read on its own, and only the last line break is left over.

Main statements: `readsAs_lines` (one node) and `parse_print_append`.
-/

namespace MailCss

open Text (Location Mark lineBreaks)
open Css

/-! ## Lines -/

/-- A line with the line break in front of it. -/
def Line.broken (l : Line) : List Char := '\n' :: (Line.indent l.depth ++ l.content)

/-- Line breaks in front of the lines are line breaks behind them. -/
theorem cons_flatMap_text (ls : List Line) :
    '\n' :: ls.flatMap Line.text = ls.flatMap Line.broken ++ ['\n'] := by
  induction ls with
  | nil => rfl
  | cons l ls ih =>
    rw [List.flatMap_cons, List.flatMap_cons, List.append_assoc, ← ih]
    simp [Line.text, Line.broken]

theorem isSpace_break (depth : Nat) : ∀ c ∈ '\n' :: Line.indent depth, isSpace c = true := by
  intro c hc
  rcases List.mem_cons.1 hc with rfl | hc
  · rfl
  · rw [List.eq_of_mem_replicate hc]
    rfl

theorem isSpace_append {s t : List Char} (hs : ∀ c ∈ s, isSpace c = true)
    (ht : ∀ c ∈ t, isSpace c = true) : ∀ c ∈ s ++ t, isSpace c = true := by
  intro c hc
  rcases List.mem_append.1 hc with hc | hc
  · exact hs c hc
  · exact ht c hc

/-- A blank line is white space. -/
theorem isSpace_gap (previous : Option Node) (n : Node) :
    ∀ c ∈ (Node.gap previous n).flatMap Line.broken, isSpace c = true := by
  unfold Node.gap
  split
  · simp
  · split
    · simp [Line.broken, Line.blank, Line.indent, isSpace]
    · simp

/-! ## Nodes -/

section Nodes

variable {lead w t : List Char} {nodes : List Node} (location : Location)
  (hlead : ∀ c ∈ lead, isSpace c = true)

include hlead

theorem readsAs_rule {selector : String} (hsel : PlainText selector.toList)
    (hbegins : BeginsPrelude selector.toList) (ht : ReadsAs t nodes)
    (hw : ∀ c ∈ w, isSpace c = true) (hne : w ≠ []) :
    ReadsAs (lead ++ ((selector.toList ++ [' ']) ++ '\x7b' :: (t ++ (w ++ ['\x7d']))))
      [.rule selector nodes location] := by
  by_cases hempty : selector.toList = []
  · -- Without a selector, the space in front of the bracket belongs to the white space before.
    have hopens : Opens [] '\x7b' fun _ => .nothing := ⟨fun _ => rfl, [], .nil, fun _ _ => rfl⟩
    have hblock := hopens.block (n := .rule selector nodes location) ht hw hne (by
      intro l here ms hms
      have hselector : selector = "" := String.toList_eq_nil_iff.1 hempty
      simp only [Node.unlocatedAll, Node.relocateAll, Node.relocate, Pending.finishBlock,
        hselector] at hms ⊢
      rw [hms])
    have hspaces : ∀ c ∈ lead ++ [' '], isSpace c = true :=
      isSpace_append hlead (by simp [isSpace])
    have hreads := hblock.after_spaces hspaces ⟨'\x7b', rfl, rfl⟩
    rw [hempty]
    simpa using hreads
  · obtain ⟨taken, htext, hopens⟩ := opens_selector hsel hbegins hempty
    refine (hopens.block ht hw hne ?_).after_spaces hlead ?_
    · intro l here ms hms
      have htrim : Text.trim (selector.toList ++ [' ']) = selector.toList := by
        rw [Text.trim_append_space, hsel.trimmed]
      simp only [Node.unlocatedAll, Node.relocateAll, Node.relocate, Pending.finishBlock,
        List.reverse_reverse, htext, htrim, String.ofList_toList] at hms ⊢
      rw [hms]
    · obtain ⟨hhead, -⟩ := isSpace_of_trim_eq hsel.trimmed
      obtain ⟨a, s, hs⟩ := List.exists_cons_of_ne_nil hempty
      rw [hs] at hhead ⊢
      exact ⟨a, rfl, hhead a rfl⟩

theorem readsAs_declaration {property value : String} (hp : PlainText property.toList)
    (hbegins : BeginsPrelude property.toList) (hne : property ≠ "") (hcolon : ':' ∉ property.toList)
    (hv : PlainText value.toList) :
    ReadsAs (lead ++ ((property.toList ++ ':' :: ' ' :: value.toList) ++ [';']))
      [.declaration property value] := by
  have hempty : property.toList ≠ [] := fun h => hne (String.toList_eq_nil_iff.1 h)
  obtain ⟨taken, htext, hopens⟩ := opens_declaration hp hbegins hempty hv
  refine (hopens.semicolon ?_).after_spaces hlead ?_
  · intro l
    have hdecl := declaration?_of_plain hp.trimmed hempty hcolon hv.trimmed
    rw [String.ofList_toList, String.ofList_toList] at hdecl
    refine ⟨.declaration property value, rfl, ?_⟩
    simp only [Pending.finish, List.reverse_reverse, htext, hdecl]
  · obtain ⟨hhead, -⟩ := isSpace_of_trim_eq hp.trimmed
    obtain ⟨a, s, hs⟩ := List.exists_cons_of_ne_nil hempty
    rw [hs] at hhead ⊢
    exact ⟨a, rfl, hhead a rfl⟩

theorem readsAs_statement {name params : String} (hname : PlainName name.toList)
    {q : List Char} (hq : MakesParams q params.toList) :
    ReadsAs (lead ++ ('@' :: (name.toList ++ q) ++ [';'])) [.atRule name params none location] := by
  obtain ⟨taken, hparams, hopens⟩ := opens_statement hname hq
  refine (hopens.semicolon ?_).after_spaces hlead ⟨'@', rfl, rfl⟩
  intro l
  refine ⟨.atRule name params none l, rfl, ?_⟩
  rw [Pending.finish, List.reverse_reverse, hparams, String.ofList_toList, String.ofList_toList]

theorem readsAs_atRule {name params : String} (hname : PlainName name.toList)
    {q : List Char} (hq : MakesParams q params.toList) (ht : ReadsAs t nodes)
    (hw : ∀ c ∈ w, isSpace c = true) (hne : w ≠ []) :
    ReadsAs (lead ++ ('@' :: (name.toList ++ (q ++ [' '])) ++ '\x7b' :: (t ++ (w ++ ['\x7d']))))
      [.atRule name params (some nodes) location] := by
  obtain ⟨taken, hparams, hopens⟩ := opens_atRule hname hq
  refine (hopens.block ht hw hne ?_).after_spaces hlead ⟨'@', rfl, rfl⟩
  intro l here ms hms
  simp only [Node.unlocatedAll, Node.relocateAll, Node.relocate, Pending.finishBlock,
    List.reverse_reverse, hparams, String.ofList_toList] at hms ⊢
  rw [hms]

end Nodes

/-- What is written of parameters, behind the name of their at-rule. -/
theorem makesParams_of_plain {params : String} (h : PlainParams params.toList) :
    MakesParams (if params = "" then [] else ' ' :: params.toList) params.toList := by
  split
  · rename_i hempty
    rw [hempty]
    exact makesParams_nil
  · rename_i hne
    exact makesParams_cons h fun hempty => hne (String.toList_eq_nil_iff.1 hempty)

mutual

/-- The lines of a plain node are read as the node. -/
theorem readsAs_lines : ∀ n : Node, n.Plain → ∀ (depth : Nat) (lead : List Char),
    (∀ c ∈ lead, isSpace c = true) → ReadsAs (lead ++ (n.lines depth).flatMap Line.broken) [n]
  | .rule selector nodes location, h, depth, lead, hlead => by
    obtain ⟨hsel, hbegins, hnodes⟩ := h
    have hread := readsAs_rule location (isSpace_append hlead (isSpace_break depth)) hsel
      hbegins (readsAs_linesAll nodes hnodes (depth + 1) none) (isSpace_break depth)
      (by simp)
    rw [Node.lines]
    simpa [Line.broken] using hread
  | .atRule name params (some nodes) location, h, depth, lead, hlead => by
    obtain ⟨hname, hparams, hnodes⟩ := h
    have hread := readsAs_atRule location (isSpace_append hlead (isSpace_break depth))
      hname (makesParams_of_plain hparams) (readsAs_linesAll nodes hnodes (depth + 1) none)
      (isSpace_break depth) (by simp)
    rw [Node.lines]
    simpa [Line.broken, Node.atRuleHead] using hread
  | .atRule name params none location, h, depth, lead, hlead => by
    obtain ⟨hname, hparams⟩ := h
    have hread := readsAs_statement location (isSpace_append hlead (isSpace_break depth))
      hname (makesParams_of_plain hparams)
    rw [Node.lines]
    simpa [Line.broken, Node.atRuleHead] using hread
  | .declaration property value, h, depth, lead, hlead => by
    obtain ⟨hp, hbegins, hne, hcolon, hv⟩ := h
    have hread := readsAs_declaration (isSpace_append hlead (isSpace_break depth)) hp
      hbegins hne hcolon hv
    rw [Node.lines]
    simpa [Line.broken] using hread
  | .comment text, h, depth, lead, hlead => by
    have hread := (readsAs_comment h).after_spaces
      (isSpace_append hlead (isSpace_break depth)) ⟨'/', rfl, rfl⟩
    rw [Node.lines]
    simpa [Line.broken] using hread

/-- The lines of plain siblings are read as the siblings. -/
theorem readsAs_linesAll : ∀ ns : List Node, Node.PlainAll ns → ∀ (depth : Nat)
    (previous : Option Node), ReadsAs ((Node.linesAll depth previous ns).flatMap Line.broken) ns
  | [], _, _, _ => by
    rw [Node.linesAll]
    exact ReadsAs.nil
  | n :: ns, h, depth, previous => by
    obtain ⟨hn, hns⟩ := h
    -- A blank line in front belongs to the white space in front of the node.
    have hfirst := readsAs_lines n hn depth _ (isSpace_gap previous n)
    have hrest := readsAs_linesAll ns hns depth (some n)
    rw [Node.linesAll, List.flatMap_append, List.flatMap_append, ← List.append_assoc]
    exact hfirst.append hrest

end

/-! ## Style sheets -/

/-- Reading what was written of plain nodes, with a text behind it. -/
theorem ofText_text_append {t : Stylesheet} (h : t.Plain) (rest : List Char) :
    ∃ ns, Node.unlocatedAll ns = Node.unlocatedAll t.nodes ∧
      Reading.ofText (t.text ++ rest) =
        ⟨ns, []⟩ ++ (Reading.ofText rest).lowered (lineBreaks t.text) := by
  have hbroken := cons_flatMap_text (Node.linesAll 0 none t.nodes)
  have hreads := readsAs_linesAll t.nodes h 0 none
  obtain ⟨ts, hts, hread⟩ := hreads.trees
  -- One line break in front, and reading begins a line higher.
  let top : Mark := { line := 0 }
  obtain ⟨ns, hns, hread⟩ := hread top (TokenTree.ofText ('\n' :: rest))
  have htext : '\n' :: (t.text ++ rest) =
      (Node.linesAll 0 none t.nodes).flatMap Line.broken ++ '\n' :: rest := by
    rw [← List.cons_append, Stylesheet.text, hbroken, List.append_assoc]
    rfl
  -- The nodes are read first, and the last line break is left in front of the rest.
  have htrees := TokenTree.ofLexemes_append_of_nested hts (lexemes ('\n' :: rest))
  have hmark : (top.advance ((Node.linesAll 0 none t.nodes).flatMap Line.broken)).step '\n' =
      Mark.start.lowered (lineBreaks t.text) := by
    have hwhole : top.advance ('\n' :: t.text) = Mark.start.advance t.text := rfl
    rw [Stylesheet.text, hbroken, Mark.advance_append] at hwhole
    have hlines : t.text = [] ∨ t.text.getLast? = some '\n' := by
      have hlast : ('\n' :: t.text).getLast? = some '\n' := by
        rw [Stylesheet.text, hbroken, List.getLast?_concat]
      rcases htext : t.text with _ | ⟨a, s⟩
      · exact .inl rfl
      · rw [htext, List.getLast?_cons_cons] at hlast
        exact .inr hlast
    rw [← Mark.start_advance hlines]
    exact hwhole
  refine ⟨ns, hns, ?_⟩
  have hfirst := readTrees_ofText_cons top (c := '\n') rfl (t.text ++ rest)
  rw [htext, TokenTree.ofText, hreads.firm, htrees] at hfirst
  rw [TokenTree.ofText] at hread
  have hrest := readTrees_ofText_cons
    (top.advance ((Node.linesAll 0 none t.nodes).flatMap Line.broken)) (c := '\n') rfl rest
  rw [hmark] at hrest
  have hlowered := readTrees_lowered (lineBreaks t.text) Mark.start (TokenTree.ofText rest)
  have hstart : top.step '\n' = Mark.start := rfl
  rw [hstart] at hfirst
  rw [Reading.ofText, ← hfirst, hread, ← TokenTree.ofText, hrest, hlowered, Reading.ofText]

/-- Reading undoes writing: what was written of a plain style sheet and any text behind it are read
as the nodes of the style sheet, up to their locations, and those of the text; and what is skipped,
each with an event in the log, is what is skipped of the text. All that is found in the text is
lowered by the lines that were written. -/
theorem parse_print_append (t : Stylesheet) (h : t.Plain) (rest : String) :
    ∃ ns, Node.unlocatedAll ns = Node.unlocatedAll t.nodes ∧
      (Stylesheet.parse (t.print ++ rest)).nodes =
        ns ++ Node.loweredAll (lineBreaks t.text) (Stylesheet.parse rest).nodes ∧
      (Reading.ofText (t.print ++ rest).toList).skipped =
        (Reading.ofText rest.toList).skipped.map (Skipped.lowered (lineBreaks t.text)) := by
  obtain ⟨ns, hns, hread⟩ := ofText_text_append h rest.toList
  have htext : (t.print ++ rest).toList = t.text ++ rest.toList := by
    rw [String.toList_append, Stylesheet.print, String.toList_ofList]
  refine ⟨ns, hns, ?_, ?_⟩
  · rw [Stylesheet.parse, htext, hread]
    rfl
  · rw [htext, hread]
    rfl

/-- A style sheet of eleven lines, and behind it a text that is skipped and a rule. -/
theorem parse_print_append_nested :
    let t : Stylesheet := ⟨[.comment "a", .rule "p > b" [.declaration "top" "0", .rule "" [] {}] {},
      .atRule "media" "x and (y: 1)" (some [.atRule "x" "" none {}]) {}]⟩
    ∃ ns, Node.unlocatedAll ns = Node.unlocatedAll t.nodes ∧
      (Stylesheet.parse (t.print ++ "c;\na{}")).nodes = ns ++ [.rule "a" [] ⟨13, 0⟩] ∧
      (Reading.ofText (t.print ++ "c;\na{}").toList).skipped = [⟨"c", ⟨12, 0⟩⟩] := by
  intro t
  obtain ⟨ns, hns, hnodes, hskipped⟩ := parse_print_append t (by decide +kernel) "c;\na{}"
  have hlines : lineBreaks t.text = 11 := by decide +kernel
  have hrest : Node.loweredAll 11 (Stylesheet.parse "c;\na{}").nodes = [.rule "a" [] ⟨13, 0⟩] := by
    cbv
  have hskip : (Reading.ofText "c;\na{}".toList).skipped.map (Skipped.lowered 11) =
      [⟨"c", ⟨12, 0⟩⟩] := by
    decide +kernel
  rw [hlines, hrest] at hnodes
  rw [hlines, hskip] at hskipped
  exact ⟨ns, hns, hnodes, hskipped⟩

/-- Reading a plain style sheet that was written gives it back, up to its locations. -/
theorem parse_print {t : Stylesheet} (h : t.Plain) :
    Node.unlocatedAll (Stylesheet.parse t.print).nodes = Node.unlocatedAll t.nodes ∧
      (Reading.ofText t.print.toList).skipped = [] := by
  obtain ⟨ns, hns, hread⟩ := ofText_text_append h []
  have hnil : (Reading.ofText []).lowered (lineBreaks t.text) = {} := rfl
  rw [List.append_nil, hnil, Reading.append_nothing] at hread
  rw [Stylesheet.parse, Stylesheet.print, String.toList_ofList, hread]
  exact ⟨hns, rfl⟩

end MailCss
