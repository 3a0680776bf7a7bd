import MailCss.Diagnostic
import MailCss.Proofs.Css.Outside
import MailCss.Proofs.Reading.Chunks

/-!
# Blocks are read like style sheets

What stands between curly brackets is read as it would be on its own, and so is what stands behind
a curly bracket that the end of the text closes: the text in the brackets makes the same trees, and
where reading begins matters to locations only. The text must keep its brackets to itself and must
not end inside a lexeme that would go on with the closing bracket.

Main statement: `parse_in_block`.
-/

namespace MailCss

open Text (Location Mark)
open Css
open Css.TokenTree (ofText)

/-! ## The trees of a block -/

/-- A text with a single lexeme that is no bracket, and in front of which an opening curly bracket
ends it. -/
structure IsHead (h : List Char) (x : Lexeme) : Prop where
  lexemes : lexemes h = [x]
  outside : EndsOutside h
  opens : x.token.closer? = none
  closes : x.token.isCloser = false

theorem bars_curlyOpen (r : List Char) : Bars ('\x7b' :: r) where
  halts := by rintro c ⟨⟩; decide
  space := by rintro c ⟨⟩; decide

theorem bars_curlyClose : Bars ['\x7d'] where
  halts := by rintro c ⟨⟩; decide
  space := by rintro c ⟨⟩; decide

/-- The trees of a head and a block whether the block is closed or cut off. -/
theorem ofText_block {h b tail : List Char} {x : Lexeme} (hh : IsHead h x)
    (hmatch : brackets [] (lexemes b) = true) (hends : EndsOutside b)
    (htail : tail = ['\x7d'] ∨ tail = []) :
    ofText (h ++ '\x7b' :: (b ++ tail)) =
      [.leaf x, .group ⟨.curlyOpen, ['\x7b']⟩ (ofText b) tail] := by
  obtain ⟨ts, hts⟩ := nested_of_brackets hmatch
  have hhead : lexemes (h ++ '\x7b' :: (b ++ tail)) =
      x :: ⟨.curlyOpen, ['\x7b']⟩ :: lexemes (b ++ tail) := by
    rw [lexemes_append_of_endsOutside hh.outside (bars_curlyOpen _), hh.lexemes,
      lexemes_curlyOpen, List.singleton_append]
  have hinner : ofText b = ts := TokenTree.ofLexemes_of_nested hts
  rw [ofText, hhead, hinner]
  rcases htail with rfl | rfl
  · have hgroup : Nested (x :: ⟨.curlyOpen, ['\x7b']⟩ :: (lexemes b ++ [⟨.curlyClose, ['\x7d']⟩]))
        [.leaf x, .group ⟨.curlyOpen, ['\x7b']⟩ ts ['\x7d']] :=
      .leaf hh.opens hh.closes (.group rfl hts .nil)
    rw [lexemes_append_of_endsOutside hends bars_curlyClose, lexemes_curlyClose]
    exact TokenTree.ofLexemes_of_nested hgroup
  · -- The builder still has the bracket open where the text ends.
    have hx : Builder.feed {} x = { done := [.leaf x] } :=
      Builder.foldl_feed_of_nested (.leaf hh.opens hh.closes .nil) {}
    have hopen : Builder.feed { done := [.leaf x] } ⟨.curlyOpen, ['\x7b']⟩ =
        { frames := [⟨⟨.curlyOpen, ['\x7b']⟩, [.leaf x]⟩] } := rfl
    rw [List.append_nil, TokenTree.ofLexemes, List.foldl_cons, hx, List.foldl_cons, hopen,
      Builder.foldl_feed_of_nested hts]
    simp [Builder.finish, Builder.finishWith]

/-! ## Reading a block -/

/-- Where a lexeme begins a node, it and the block behind it are read as one node, which has what
is read of the block on its own, up to locations. -/
theorem ofText_head_block {h b tail : List Char} {x : Lexeme} (hh : IsHead h x)
    (hends : x.token ≠ .semicolon) (hbetween : betweenNodes? x.token = none)
    (hmatch : brackets [] (lexemes b) = true) (hb : EndsOutside b)
    (htail : tail = ['\x7d'] ∨ tail = []) :
    ∃ here ns, (Reading.ofText (h ++ '\x7b' :: (b ++ tail))).nodes =
        [(Pending.nothing.take Mark.start.location (.leaf x)).finishBlock here ns] ∧
      Node.unlocatedAll ns = Node.unlocatedAll (Reading.ofText b).nodes ∧
      (Reading.ofText (h ++ '\x7b' :: (b ++ tail))).skipped.map Skipped.text =
        (Reading.ofText b).skipped.map Skipped.text := by
  have hleaf : (TokenTree.leaf x).endsNode = false := by simpa [TokenTree.endsNode] using hends
  have htake := readTree_take (t := .leaf x) (p := .nothing) Mark.start hleaf fun _ => by
    rw [TokenTree.isBetween, hbetween]
    rfl
  let inside := (Mark.start.advance x.source).advance ['\x7b']
  have hread : Reading.ofText (h ++ '\x7b' :: (b ++ tail)) =
      ⟨[(Pending.nothing.take Mark.start.location (.leaf x)).finishBlock
        (Mark.start.advance x.source).location (readTrees inside .nothing (ofText b)).nodes],
        (readTrees inside .nothing (ofText b)).skipped⟩ := by
    rw [Reading.ofText, ofText_block hh hmatch hb htail, readTrees, htake]
    simp only
    rw [readTrees, readTree_block _ _ _ _ rfl]
    simp only
    rw [readTrees, Pending.finish, Reading.append_nothing]
    rfl
  obtain ⟨hnodes, htexts⟩ := readTrees_unlocated inside .start (ofText b)
  rw [hread]
  exact ⟨_, _, rfl, hnodes, htexts⟩

theorem isHead_x : IsHead ['x'] ⟨.ident "x", ['x']⟩ where
  lexemes := by decide
  outside := by decide
  opens := rfl
  closes := rfl

theorem isHead_at_x : IsHead ['@', 'x'] ⟨.atKeyword "x", ['@', 'x']⟩ where
  lexemes := by decide
  outside := by decide
  opens := rfl
  closes := rfl

/-- The contents of a block are read as on their own, in a rule and in an at-rule, closed and cut
off by the end of the text: the children are the same up to locations, and the log has the same
messages about what is skipped. -/
theorem parse_in_block (b : String) (hmatch : brackets [] (lexemes b.toList) = true)
    (hends : EndsOutside b.toList) (tail : String) (htail : tail = "\x7d" ∨ tail = "") :
    (∃ ns l, (Stylesheet.parse ("x\x7b" ++ b ++ tail)).nodes = [.rule "x" ns l] ∧
      Node.unlocatedAll ns = Node.unlocatedAll (Stylesheet.parse b).nodes) ∧
    (∃ ns l, (Stylesheet.parse ("@x\x7b" ++ b ++ tail)).nodes = [.atRule "x" "" (some ns) l] ∧
      Node.unlocatedAll ns = Node.unlocatedAll (Stylesheet.parse b).nodes) ∧
    ∀ head ∈ ["x\x7b", "@x\x7b"],
      (Reading.ofText (head ++ b ++ tail).toList).skipped.map (·.event.message) =
        (Reading.ofText b.toList).skipped.map (·.event.message) := by
  have htail' : tail.toList = ['\x7d'] ∨ tail.toList = [] := by
    rcases htail with rfl | rfl
    · exact .inl rfl
    · exact .inr rfl
  have hrule := ofText_head_block isHead_x (by rintro ⟨⟩) rfl hmatch hends htail'
  have hatRule := ofText_head_block isHead_at_x (by rintro ⟨⟩) rfl hmatch hends htail'
  have hx : ("x\x7b" ++ b ++ tail).toList = ['x'] ++ '\x7b' :: (b.toList ++ tail.toList) := by
    simp
  have hatx : ("@x\x7b" ++ b ++ tail).toList =
      ['@', 'x'] ++ '\x7b' :: (b.toList ++ tail.toList) := by
    simp
  -- A message depends on the skipped text only.
  have hmessage {ss ss' : List Skipped} (h : ss.map Skipped.text = ss'.map Skipped.text) :
      ss.map (·.event.message) = ss'.map (·.event.message) := by
    have hevent : (fun s : Skipped => s.event.message) =
        ("skipping unrecognized CSS: " ++ ·) ∘ Skipped.text := rfl
    rw [hevent, ← List.map_map, ← List.map_map, h]
  rw [← hx] at hrule
  rw [← hatx] at hatRule
  have hnode (here : Location) (ns : List Node) :
      (Pending.nothing.take Mark.start.location (.leaf ⟨.ident "x", ['x']⟩)).finishBlock here ns =
        .rule "x" ns Mark.start.location := by
    cbv
  have hatNode (here : Location) (ns : List Node) :
      (Pending.nothing.take Mark.start.location (.leaf ⟨.atKeyword "x", ['@', 'x']⟩)).finishBlock
        here ns = .atRule "x" "" (some ns) Mark.start.location := by
    cbv
  simp only [hnode, hatNode] at hrule hatRule
  obtain ⟨here, ns, hnodes, hns, htexts⟩ := hrule
  obtain ⟨here', ns', hnodes', hns', htexts'⟩ := hatRule
  refine ⟨⟨ns, _, hnodes, hns⟩, ⟨ns', _, hnodes', hns'⟩, ?_⟩
  intro head hhead
  rcases List.mem_pair.1 hhead with rfl | rfl
  · exact hmessage htexts
  · exact hmessage htexts'

/-- A declaration, a comment, a rule, and at the end what the block ends, with a text in between
that is skipped. -/
theorem parse_in_block_cut :
    let b := "c d;/*e*/p\x7bq:r\x7du:v"
    brackets [] (lexemes b.toList) = true ∧ EndsOutside b.toList ∧
      (∃ ns l, (Stylesheet.parse ("x\x7b" ++ b ++ "")).nodes = [.rule "x" ns l] ∧
        Node.unlocatedAll ns =
          [.comment "e", .rule "p" [.declaration "q" "r"] {}, .declaration "u" "v"]) ∧
      (Reading.ofText ("x\x7b" ++ b ++ "").toList).skipped.map (·.event.message) =
        ["skipping unrecognized CSS: c d"] := by
  intro b
  have hmatch : brackets [] (lexemes b.toList) = true := by decide
  have hends : EndsOutside b.toList := by decide
  obtain ⟨⟨ns, l, hnodes, hns⟩, -, hmessages⟩ := parse_in_block b hmatch hends "" (.inr rfl)
  have hnodes' : Node.unlocatedAll (Stylesheet.parse "c d;/*e*/p\x7bq:r\x7du:v").nodes =
      [.comment "e", .rule "p" [.declaration "q" "r"] {}, .declaration "u" "v"] := by
    cbv
  refine ⟨hmatch, hends, ⟨ns, l, hnodes, hns.trans hnodes'⟩, (hmessages _ (by simp)).trans ?_⟩
  decide +kernel

end MailCss
