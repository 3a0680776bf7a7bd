import MailCss.Proofs.Css.Trees
import MailCss.Proofs.Reading.Heads
import MailCss.Proofs.Reading.Params
import MailCss.Proofs.Reading.Preludes
import MailCss.Proofs.Text.Places

/-!
# Where nodes are located

The locations of the rules and at-rules of a text rise in the order in which the nodes are written,
and the text at each of them is what the node was read from.

For the order, everything that is read between two marks has its location there: `Rising` says so
of a list of locations, and a node that is still pending counts from where it began
(`Pending.earliest`). For the text, a node's source on its level is looked up in the whole text.

Main statements: `rising_readTree` and `rising_readTrees` (one step and a whole level),
`beginsIn_of_source` (the text at a location), and `Stylesheet.parse_located`.
-/

namespace MailCss

open Text (Location Mark TextAt)
open Css (TokenTree Token Lexeme)
open Css.TokenTree (sourceAll sourceAll_append SoundAll Sound)

/-- The location of a node that has one: a rule or an at-rule. -/
def Node.location? : Node → Option Location
  | .rule _ _ location => some location
  | .atRule _ _ _ location => some location
  | .declaration .. | .comment _ => none

/-- The locations of the rules and at-rules among siblings and in them. -/
def Node.locations (ns : List Node) : List Location := (withinAll ns).filterMap location?

@[simp] theorem Node.locations_append (ns ms : List Node) :
    locations (ns ++ ms) = locations ns ++ locations ms := by
  simp [locations]

/-! ## Rising locations -/

/-- Locations that rise, none before `lo` and all before `hi`. -/
structure Rising (lo hi : Location) (ls : List Location) : Prop where
  rises : ls.Pairwise (· < ·)
  notBefore : ∀ l ∈ ls, lo ≤ l
  before : ∀ l ∈ ls, l < hi

namespace Rising

variable {lo mid hi : Location} {ls ls' : List Location}

theorem nil : Rising lo hi [] := ⟨.nil, by simp, by simp⟩

theorem mono {lo' hi' : Location} (h : Rising lo hi ls) (hlo : lo' ≤ lo) (hhi : hi ≤ hi') :
    Rising lo' hi' ls where
  rises := h.rises
  notBefore l hl := hlo.trans (h.notBefore l hl)
  before l hl := (h.before l hl).trans_le hhi

/-- A location in front of others. -/
theorem cons (h : Rising mid hi ls) (hlo : lo < mid) (hhi : lo < hi) :
    Rising lo hi (lo :: ls) where
  rises := List.pairwise_cons.2 ⟨fun l hl => hlo.trans_le (h.notBefore l hl), h.rises⟩
  notBefore := List.forall_mem_cons.2 ⟨le_rfl, fun l hl => hlo.le.trans (h.notBefore l hl)⟩
  before := List.forall_mem_cons.2 ⟨hhi, h.before⟩

theorem append (h : Rising lo mid ls) (h' : Rising mid hi ls') (hlo : lo ≤ mid) (hhi : mid ≤ hi) :
    Rising lo hi (ls ++ ls') where
  rises := by
    refine List.pairwise_append.2 ⟨h.rises, h'.rises, ?_⟩
    intro l hl l' hl'
    exact (h.before l hl).trans_le (h'.notBefore l' hl')
  notBefore l hl := by
    rcases List.mem_append.1 hl with hl | hl
    · exact h.notBefore l hl
    · exact hlo.trans (h'.notBefore l hl)
  before l hl := by
    rcases List.mem_append.1 hl with hl | hl
    · exact (h.before l hl).trans_le hhi
    · exact h'.before l hl

end Rising

/-! ## The order of what is read -/

namespace Pending

/-- Where the node that is pending began. -/
def start? : Pending → Option Location
  | .nothing => none
  | .prelude start _ => some start
  | .atRule start _ _ => some start

/-- The first location that what is read from the mark `m` on can have. -/
def earliest (m : Mark) (p : Pending) : Location := p.start?.getD m.location

/-- What is pending at the mark `m` began before it. -/
def BeganBefore (m : Mark) (p : Pending) : Prop := ∀ start ∈ p.start?, start < m.location

variable {m : Mark} {p : Pending}

theorem beganBefore_nothing (m : Mark) : nothing.BeganBefore m := by
  intro start hstart
  cases hstart

theorem BeganBefore.earliest_le (h : p.BeganBefore m) : p.earliest m ≤ m.location := by
  cases p with
  | nothing => exact le_rfl
  | prelude start taken => exact (h start rfl).le
  | atRule start name taken => exact (h start rfl).le

theorem BeganBefore.advance (h : p.BeganBefore m) (s : List Char) : p.BeganBefore (m.advance s) :=
  fun start hstart => (h start hstart).trans_le (m.location_le_advance s)

theorem earliest_take (m : Mark) (p : Pending) (t : TokenTree) (m' : Mark) :
    (p.take m.location t).earliest m' = p.earliest m := by
  cases p with
  | nothing =>
    rw [take]
    split <;> rfl
  | prelude start taken => rfl
  | atRule start name taken => rfl

/-- What is ended without a block has the location where it began, or none. -/
theorem rising_finish (h : p.BeganBefore m) :
    Rising (p.earliest m) m.location (Node.locations p.finish.nodes) := by
  cases p with
  | nothing => exact .nil
  | prelude start taken =>
    rw [finish]
    simp only [declaration?]
    split
    · rename_i n hn
      split at hn
      · cases hn
      · split at hn
        · cases hn
        · cases hn
          exact .nil
    · split <;> exact .nil
  | atRule start name taken => exact Rising.nil.cons (h start rfl) (h start rfl)

/-- A block comes after where its node began. -/
theorem locations_finishBlock (m : Mark) (p : Pending) (block : List Node) :
    Node.locations [p.finishBlock m.location block] = p.earliest m :: Node.locations block := by
  cases p <;> simp [Node.locations, Node.withinAll, Node.within, finishBlock, Node.location?,
    earliest, start?]

end Pending

/-- What stands between nodes has no location. -/
theorem locations_of_betweenNodes? {t : Token} {r : Reading} (h : betweenNodes? t = some r) :
    Node.locations r.nodes = [] := by
  cases t <;> cases h <;> rfl

/-- A tree that may begin a node begins with a character that moves on the location. -/
theorem Css.TokenTree.Sound.location_lt {t : TokenTree} (h : t.Sound)
    (ht : t.token.isSkipped = false) (m : Mark) : m.location < (m.advance t.source).location := by
  obtain ⟨c, s, hs, hspace⟩ := h.exists_source
  rw [hs]
  refine Mark.location_lt_advance (fun _ hc => ?_) s
  have hnot := hspace ht
  rw [hc] at hnot
  cases hnot

theorem isSkipped_of_isBetween {t : TokenTree} (h : t.Sound) (ht : t.isBetween = false) :
    t.token.isSkipped = false := by
  cases t with
  | leaf x =>
    obtain ⟨token, source⟩ := x
    cases token <;> first | rfl | cases ht
  | group x inner closer =>
    rw [Sound] at h
    obtain ⟨-, -, u, hu, -⟩ := h
    exact Token.isSkipped_of_closer? hu

section Order

variable {m : Mark} {p : Pending}

/-- What one step of reading, from the mark `m` past the text `s`, says about locations: those it
completes rise up to where what is pending afterwards began, and that is before the mark reached. -/
structure StepRises (m : Mark) (p : Pending) (s : List Char) (x : Reading × Pending) : Prop where
  rises : Rising (p.earliest m) (x.2.earliest (m.advance s)) (Node.locations x.1.nodes)
  began : x.2.BeganBefore (m.advance s)
  forward : p.earliest m ≤ x.2.earliest (m.advance s)

theorem stepRises_nothing {r : Reading} {s : List Char} (h : p.BeganBefore m)
    (hr : Rising (p.earliest m) (m.advance s).location (Node.locations r.nodes)) :
    StepRises m p s (r, .nothing) where
  rises := hr
  began := Pending.beganBefore_nothing _
  forward := h.earliest_le.trans (m.location_le_advance s)

theorem stepRises_take (h : p.BeganBefore m) {t : TokenTree} (ht : t.Sound)
    (hbetween : p = .nothing → t.isBetween = false) :
    StepRises m p t.source ({}, p.take m.location t) where
  rises := .nil
  began := by
    cases p with
    | nothing =>
      intro start hstart
      have hlt := ht.location_lt (isSkipped_of_isBetween ht (hbetween rfl)) m
      have hearliest := Pending.earliest_take m .nothing t (m.advance t.source)
      rw [Pending.earliest, Option.mem_def.1 hstart] at hearliest
      exact lt_of_eq_of_lt hearliest hlt
    | prelude start taken => exact h.advance t.source
    | atRule start name taken => exact h.advance t.source
  forward := (Pending.earliest_take m p t _).ge

mutual

/-- One step of reading. -/
theorem rising_readTree (m : Mark) (p : Pending) (h : p.BeganBefore m) :
    ∀ t : TokenTree, t.Sound → StepRises m p t.source (readTree m p t)
  | .group x inner closer, ht => by
    have hsound := ht
    rw [Sound] at hsound
    by_cases hx : x.token = .curlyOpen
    · have hread : x.source = ['\x7b'] := hsound.1.source_of_mark? (by rw [hx]; rfl)
      have hopen : m.location < (m.advance x.source).location := by
        rw [hread]
        exact Mark.location_lt_advance (by simp) []
      have hinner := rising_readTrees (m.advance x.source) .nothing
        (Pending.beganBefore_nothing _) inner hsound.2.1
      rw [readTree_block m p inner closer hx]
      refine stepRises_nothing h ?_
      rw [Pending.locations_finishBlock, TokenTree.source, Mark.advance_append, Mark.advance_append]
      have hclose :=
        Mark.location_le_advance ((m.advance x.source).advance (sourceAll inner)) closer
      have hlo : p.earliest m < (m.advance x.source).location := h.earliest_le.trans_lt hopen
      exact (hinner.mono le_rfl hclose).cons hlo
        ((hlo.trans_le (Mark.location_le_advance _ _)).trans_le hclose)
    · rw [readTree_take m (by simpa [TokenTree.endsNode] using hx) fun _ => rfl]
      exact stepRises_take h ht fun _ => rfl
  | .leaf x, ht => by
    by_cases hskip : p = .nothing ∧ (TokenTree.leaf x).isBetween = true
    · obtain ⟨rfl, hbetween⟩ := hskip
      obtain ⟨r, hr⟩ := Option.isSome_iff_exists.1 hbetween
      rw [readTree_between m hr]
      refine stepRises_nothing h ?_
      rw [locations_of_betweenNodes? hr]
      exact .nil
    · by_cases hsemi : x.token = .semicolon
      · rw [readTree_semicolon m p hsemi]
        exact stepRises_nothing h
          ((Pending.rising_finish h).mono le_rfl (m.location_le_advance _))
      · have hbetween : p = .nothing → (TokenTree.leaf x).isBetween = false := by
          intro hp
          simpa [hp] using hskip
        rw [readTree_take m (by simpa [TokenTree.endsNode] using hsemi) hbetween]
        exact stepRises_take h ht hbetween

/-- Reading trees: the locations of what is found rise from where what is pending began to the mark
behind the trees. -/
theorem rising_readTrees (m : Mark) (p : Pending) (h : p.BeganBefore m) :
    ∀ ts : List TokenTree, SoundAll ts →
      Rising (p.earliest m) (m.advance (sourceAll ts)).location
        (Node.locations (readTrees m p ts).nodes)
  | [], _ => Pending.rising_finish h
  | t :: ts, hts => by
    rw [SoundAll] at hts
    have hstep := rising_readTree m p h t hts.1
    have hrest := rising_readTrees _ _ hstep.began ts hts.2.2
    rw [readTrees, sourceAll, Mark.advance_append]
    simp only
    rw [Reading.nodes_append, Node.locations_append]
    exact hstep.rises.append hrest hstep.forward
      (hstep.began.earliest_le.trans (Mark.location_le_advance _ _))

end

end Order

/-! ## Lexemes that begin a group or an at-rule -/

namespace Css

/-- An at-keyword is read from an at sign. -/
theorem Lexeme.IsRead.source_of_atKeyword {x : Lexeme} {name : String} (hx : x.IsRead)
    (h : x.token = .atKeyword name) : x.source.head? = some '@' := by
  obtain ⟨c, r, rfl⟩ := hx
  revert h
  apply scan_elim_of_solid (p := fun y => y.token = .atKeyword name → y.source.head? = some '@')
  case solid => intro y hsolid hname; rw [hname] at hsolid; cases hsolid
  case space => intro _ hname; cases hname
  case comment => intro _ _ hname; cases hname
  case at_sign =>
    intro _ _
    unfold scanAt
    split <;> rfl
  case commentClose => intro _ hname; cases hname
  case commentOpen => intro _ hname; cases hname
  case punctuation => intro hname; exact absurd hname ((scanPunctuation_beginsPrelude c r).2 name)

/-- A function is read up to its parenthesis. -/
theorem Lexeme.IsRead.source_of_function {x : Lexeme} {name : String} (hx : x.IsRead)
    (h : x.token = .function name) : '(' ∈ x.source := by
  obtain ⟨c, r, rfl⟩ := hx
  revert h
  apply scan_elim (p := fun y => y.token = .function name → '(' ∈ y.source)
  case space => intro _ hname; cases hname
  case comment => intro _ _ hname; cases hname
  case string =>
    intro _ hname
    rcases scanString_cases c r with ⟨s, w, hread⟩ | ⟨s, w, hread⟩ <;> rw [hread] at hname <;>
      cases hname
  case hash =>
    intro _ hname
    rcases scanHash_cases r with ⟨s, w, hread⟩ | ⟨s, w, hread⟩ | hread <;> rw [hread] at hname <;>
      cases hname
  case at_sign =>
    intro _ hname
    rcases scanAt_cases r with ⟨s, w, hread⟩ | hread <;> rw [hread] at hname <;> cases hname
  case numeric =>
    intro _ hname
    rcases scanNumeric_cases (c :: r) with ⟨n, w, hread⟩ | ⟨n, w, hread⟩ | ⟨n, u, w, hread⟩ <;>
      rw [hread] at hname <;> cases hname
  case commentClose => intro _ hname; cases hname
  case commentOpen => intro _ hname; cases hname
  case identLike =>
    intro _ hname
    rcases scanIdentLike_cases (c :: r) with hread | hread | ⟨u, w, hread⟩ | ⟨u, w, hread⟩ <;>
      rw [hread] at hname ⊢ <;> cases hname
    simp
  case punctuation =>
    intro hname
    rcases scanPunctuation_cases c r with ⟨t, ht, hread⟩ | hread <;> rw [hread] at hname
    · have hmatchers : ∀ t ∈ matchers, t.closer? = none := by decide
      have hcloser := hmatchers t ht
      rw [show t = .function name from hname] at hcloser
      cases hcloser
    · dsimp only at hname
      unfold single at hname
      repeat' split at hname
      all_goals cases hname

/-- The text of what opens a group shows: it has a bracket. -/
theorem Lexeme.IsRead.exists_not_blank {x : Lexeme} {t : Token} (hx : x.IsRead)
    (h : x.token.closer? = some t) : ∃ c ∈ x.source, Text.isBlank c = false := by
  obtain ⟨token, source⟩ := x
  cases token with
  | function name => exact ⟨'(', hx.source_of_function rfl, rfl⟩
  | parenOpen | squareOpen | curlyOpen =>
    have hsource := hx.source_of_mark? rfl
    rw [hsource]
    exact ⟨_, List.mem_singleton_self _, rfl⟩
  | _ => cases h

end Css

/-! ## The text at a location -/

/-- How the text at the location of a node begins: for an at-rule with an at sign; for a rule,
behind blanks, with the selector, or with the bracket of its block if the selector is empty. -/
def Node.BeginsIn (rest : List Char) : Node → Prop
  | .rule selector _ _ => selector.toList <+: Text.trimStart rest ∧
      (selector = "" → (Text.trimStart rest).head? = some '\x7b')
  | .atRule .. => rest.head? = some '@'
  | .declaration .. | .comment _ => True

/-- A text that begins with no line feed stands at the location behind what is in front of it. -/
theorem textAt_advance {before rest : List Char} (h : rest.head? ≠ some '\n') :
    TextAt (before ++ rest) (Mark.start.advance before).location rest :=
  ⟨before, rfl, Mark.location_start_advance before, fun _ => h⟩

/-- A prelude without anything but blanks does not end in a bracketed group. -/
theorem not_endsInGroup_of_blank {head : List TokenTree} (hsound : ∀ t ∈ head, t.Sound)
    (h : ∀ c ∈ preludeText head, Text.isBlank c = true) : ¬ EndsInGroup head := by
  rintro ⟨x, inner, closer, hlast⟩
  obtain ⟨init, rfl⟩ : ∃ init, head = init ++ [.group x inner closer] :=
    List.getLast?_eq_some_iff.1 hlast
  have hgroup := hsound (.group x inner closer) (by simp)
  rw [Sound] at hgroup
  obtain ⟨hread, -, u, hu, -⟩ := hgroup
  have hsplit := preludeText_append_lost (init ++ [.group x inner closer])
  have hlost : lost (init ++ [.group x inner closer]) = sourceAll inner ++ closer := by simp [lost]
  have hsource : sourceAll (init ++ [.group x inner closer]) =
      (sourceAll init ++ x.source) ++ (sourceAll inner ++ closer) := by
    simp [sourceAll, TokenTree.source]
  rw [hlost, hsource] at hsplit
  rw [List.append_cancel_right hsplit] at h
  obtain ⟨c, hc, hnot⟩ := hread.exists_not_blank hu
  rw [h c (List.mem_append_right _ hc)] at hnot
  cases hnot

/-- A prelude with a block behind it begins, behind blanks, with the selector that it gives. -/
theorem beginsIn_rule {head : List TokenTree} (hsound : ∀ t ∈ head, t.Sound) (rest : List Char)
    (nodes : List Node) (location : Location) :
    (Node.rule (String.ofList (Text.trim (preludeText head))) nodes location).BeginsIn
      (sourceAll head ++ '\x7b' :: rest) := by
  rw [← preludeText_append_lost, List.append_assoc]
  by_cases hblank : Text.trim (preludeText head) = []
  · have hall := Text.trim_eq_nil_iff.1 hblank
    have hbrace : Text.trimStart (preludeText head ++ (lost head ++ '\x7b' :: rest)) =
        '\x7b' :: rest := by
      rw [lost_eq_nil (not_endsInGroup_of_blank hsound hall), Text.trimStart_append_of_blank hall]
      rfl
    constructor
    · rw [hblank]
      exact List.nil_prefix
    · intro _
      rw [hbrace]
      rfl
  · have hshows : Text.trimStart (preludeText head) ≠ [] := by
      intro hnil
      rw [Text.trim, hnil] at hblank
      exact hblank rfl
    constructor
    · rw [String.toList_ofList, Text.trimStart_append hshows]
      exact (List.rdropWhile_prefix _ _).trans (List.prefix_append _ _)
    · intro hempty
      exact absurd (String.ofList_eq_empty_iff.1 hempty) hblank

/-- The text of a prelude and its block begins with no line feed. -/
theorem head?_prelude_ne {head : List TokenTree} (hsound : ∀ t ∈ head, t.Sound)
    (hhead : IsPrelude head) (rest : List Char) :
    (sourceAll head ++ '\x7b' :: rest).head? ≠ some '\n' := by
  cases head with
  | nil => simp [sourceAll]
  | cons t head =>
    have ht := hsound t List.mem_cons_self
    obtain ⟨c, w, hw, hspace⟩ := ht.exists_source
    have hc := hspace (isSkipped_of_isBetween ht (hhead.first t rfl).1)
    rw [sourceAll, hw]
    intro hfeed
    obtain rfl : c = '\n' := by simpa using hfeed
    cases hc

/-- An at-rule stands where its at-keyword does. -/
theorem exists_textAt_atRule {s start : List Char} {before us : List TokenTree} {k : TokenTree}
    {name : String} (hlevel : Level s start (before ++ k :: us)) (hk : k.token = .atKeyword name) :
    ∃ rest, TextAt s ((Mark.start.advance start).advance (sourceAll before)).location rest ∧
      rest.head? = some '@' := by
  obtain ⟨rest, hrest, -⟩ := hlevel.exists_append
  have hsound := hlevel.soundAll.sound k (by simp)
  have hat : (k.source ++ (sourceAll us ++ rest)).head? = some '@' := by
    obtain ⟨w, hw⟩ := k.head_source_prefix
    obtain ⟨v, hv⟩ := List.head?_eq_some_iff.1 (hsound.head_isRead.source_of_atKeyword hk)
    rw [← hw, hv]
    rfl
  refine ⟨_, ?_, hat⟩
  rw [← Mark.advance_append, hrest, sourceAll_append, sourceAll, List.append_assoc,
    List.append_assoc, ← List.append_assoc]
  exact textAt_advance (by rw [hat]; decide)

/-- On a level of a text, the text at a node's location begins as the node does. -/
theorem beginsIn_of_source {s start : List Char} {ts : List TokenTree} {n : Node} {l : Location}
    (hlevel : Level s start ts) (h : n.Source (Mark.start.advance start) ts)
    (hl : n.location? = some l) : ∃ rest, TextAt s l rest ∧ n.BeginsIn rest := by
  cases n with
  | rule selector nodes location =>
    obtain ⟨before, head, x, inner, closer, after, rfl, -, hhead, hx, rfl, rfl, -⟩ := h
    obtain rfl := Option.some.inj hl
    have hall := hlevel.soundAll.sound
    have hsound : ∀ t ∈ head, t.Sound := fun t ht => hall t (by simp [ht])
    have hread : x.source = ['\x7b'] := by
      have hgroup := hall (.group x inner closer) (by simp)
      exact hgroup.head_isRead.source_of_mark? (by rw [TokenTree.head, hx]; rfl)
    obtain ⟨rest, hrest, -⟩ := hlevel.exists_append
    refine ⟨_, ?_, beginsIn_rule hsound (sourceAll inner ++ (closer ++ (sourceAll after ++ rest)))
      nodes _⟩
    have htext : s = (start ++ sourceAll before) ++ (sourceAll head ++
        '\x7b' :: (sourceAll inner ++ (closer ++ (sourceAll after ++ rest)))) := by
      rw [hrest]
      simp [sourceAll, TokenTree.source, hread]
    rw [← Mark.advance_append, htext]
    exact textAt_advance (head?_prelude_ne hsound hhead _)
  | atRule name params block location =>
    obtain rfl := Option.some.inj hl
    cases block with
    | none =>
      obtain ⟨before, k, head, after, rfl, -, hk, -, -, rfl, -⟩ := h
      exact exists_textAt_atRule hlevel hk
    | some nodes =>
      obtain ⟨before, k, head, x, inner, closer, after, rfl, -, hk, -, -, rfl, -, -⟩ := h
      exact exists_textAt_atRule hlevel hk
  | declaration property value => cases hl
  | comment text => cases hl

/-- The locations of the rules and at-rules that a text holds rise strictly in the order in which
the nodes are written, and every one of them stands for one place of the text, where the node
begins. -/
theorem Stylesheet.parse_located (css : String) :
    (Node.locations (parse css).nodes).Pairwise (· < ·) ∧
      ∀ n ∈ Node.withinAll (parse css).nodes, ∀ l, n.location? = some l →
        (∃ rest, TextAt css.toList l rest) ∧
          ∀ rest, TextAt css.toList l rest → n.BeginsIn rest := by
  constructor
  · exact (rising_readTrees .start .nothing (Pending.beganBefore_nothing _) _
      (TokenTree.soundAll_ofText css.toList)).rises
  · intro n hn l hl
    obtain ⟨start, ts, hlevel, hsource⟩ := exists_level_of_mem_parse hn
    obtain ⟨rest, hrest, hbegins⟩ := beginsIn_of_source hlevel hsource hl
    refine ⟨⟨rest, hrest⟩, ?_⟩
    intro rest' hrest'
    rw [hrest'.unique hrest]
    exact hbegins

/-- Lines are counted inside comments too, and columns in UTF-16 code units. -/
theorem Stylesheet.parse_located_sample :
    Node.locations (parse "/*\r\n*/a\x7b\x7d😀\x7b@x;\n@y\x7b\x7d\x7d").nodes =
        [⟨2, 2⟩, ⟨2, 5⟩, ⟨2, 8⟩, ⟨3, 0⟩] ∧
      (∃ rest, TextAt "/*\r\n*/a\x7b\x7d😀\x7b@x;\n@y\x7b\x7d\x7d".toList ⟨3, 0⟩ rest) ∧
      ∀ rest, TextAt "/*\r\n*/a\x7b\x7d😀\x7b@x;\n@y\x7b\x7d\x7d".toList ⟨3, 0⟩ rest →
        rest.head? = some '@' := by
  have hnodes : Node.withinAll
      (parse "/*\r\n*/a\x7b\x7d😀\x7b@x;\n@y\x7b\x7d\x7d").nodes =
        [.comment "", .rule "a" [] ⟨2, 2⟩,
          .rule "😀" [.atRule "x" "" none ⟨2, 8⟩, .atRule "y" "" (some []) ⟨3, 0⟩] ⟨2, 5⟩,
          .atRule "x" "" none ⟨2, 8⟩, .atRule "y" "" (some []) ⟨3, 0⟩] := by
    cbv
  constructor
  · rw [Node.locations, hnodes]
    rfl
  · refine (parse_located _).2 (.atRule "y" "" (some []) ⟨3, 0⟩) ?_ _ rfl
    rw [hnodes]
    simp

end MailCss
