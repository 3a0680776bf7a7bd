import MailCss.Proofs.Css.Meanings
import MailCss.Proofs.Selector.Fronts

/-!
# Selectors of keyframes

The blocks of keyframes have `from`, `to`, percentages, or several of these between commas where a
style rule has its selector. As a selector list, `from` and `to` are names of elements and a
percentage is no selector, so that a client adapts such a text if it has no percentage, and then
never leaves it as it is.

Main statements: `Client.isOk_adapter_iff` and `Client.adapter_ne_self`.
-/

namespace MailCss

open Css (Token TokenTree Lexeme lexemes)

/-! ## Keyframes -/

namespace Css.Token

/-- Whether a token is a percentage. -/
def isPercentage : Token → Bool
  | .percentage _ => true
  | _ => false

/-- Whether a token is the name of one of the two keyframes that have one. -/
def isKeyframeName : Token → Bool
  | .ident name => Names.lower name = "from" || Names.lower name = "to"
  | _ => false

/-- Whether a token stands for a keyframe. -/
def isKeyframe (t : Token) : Bool := t.isKeyframeName || t.isPercentage

end Css.Token

/-- The tokens between commas, without comments and white space. -/
def tokenParts (s : String) : List (List Token) :=
  Sequence.splitWhere (· == .comma)
    (((lexemes s.toList).filter fun x => !x.token.isSkipped).map Lexeme.token)

/-- Whether a text selects keyframes: one between any two commas. -/
def selectsKeyframes (s : String) : Bool :=
  (tokenParts s).all fun
    | [t] => t.isKeyframe
    | _ => false

/-- Whether a text has a percentage in it. -/
def hasPercentage (s : String) : Bool := (lexemes s.toList).any fun x => x.token.isPercentage

theorem Sequence.splitWhere_map_filter {α β : Type} {f : α → β} {p : β → Bool} {q : α → Bool}
    (h : ∀ x, p (f x) = true → q x = true) (xs : List α) :
    splitWhere p ((xs.filter q).map f) =
      (splitWhere (fun x => p (f x)) xs).map fun part => (part.filter q).map f := by
  induction xs with
  | nil => rfl
  | cons x xs ih =>
    obtain ⟨part, parts, hparts⟩ :=
      List.exists_cons_of_ne_nil (splitWhere_ne_nil (fun x => p (f x)) xs)
    rw [hparts] at ih
    by_cases hx : p (f x) = true
    · simp [splitWhere, hx, h x hx, ih, hparts]
    · by_cases hq : q x = true
      · simp [splitWhere, hx, hq, ih, hparts, extend]
      · simp [splitWhere, hx, hq, ih, hparts, extend]

variable {s : String} {t : Item} {items rest : List Item} {name : String}

/-- A text that selects keyframes is made of keyframes, commas, white space and comments. -/
theorem isKeyframe_of_mem_lexemes (h : selectsKeyframes s = true) {x : Lexeme}
    (hx : x ∈ lexemes s.toList) :
    x.token.isSkipped = true ∨ x.token = .comma ∨ x.token.isKeyframe = true := by
  by_cases hskipped : x.token.isSkipped = true
  · exact .inl hskipped
  by_cases hcomma : x.token = .comma
  · exact .inr (.inl hcomma)
  refine .inr (.inr ?_)
  have hmem : x.token ∈ (tokenParts s).flatten := by
    rw [tokenParts, Sequence.flatten_splitWhere, List.mem_filter]
    refine ⟨List.mem_map_of_mem (List.mem_filter.2 ⟨hx, by simpa using hskipped⟩), ?_⟩
    simpa using hcomma
  obtain ⟨part, hpart, hxpart⟩ := List.mem_flatten.1 hmem
  have hkeyframe := List.all_eq_true.1 h part hpart
  split at hkeyframe
  · obtain rfl := List.mem_singleton.1 hxpart
    exact hkeyframe
  · cases hkeyframe

/-- Without brackets, every lexeme of a text is an item. -/
theorem ofTrees_ofText_of_selectsKeyframes (h : selectsKeyframes s = true) :
    Item.ofTrees (TokenTree.ofText s.toList) =
      (lexemes s.toList).map fun x => Item.ofTree (.leaf x) := by
  have hnested {xs : List Lexeme}
      (hxs : ∀ x ∈ xs, x.token.closer? = none ∧ x.token.isCloser = false) :
      Css.Nested xs (xs.map TokenTree.leaf) := by
    induction xs with
    | nil => exact .nil
    | cons x xs ih =>
      obtain ⟨hopen, hclose⟩ := hxs x List.mem_cons_self
      exact .leaf hopen hclose (ih fun y hy => hxs y (List.mem_cons_of_mem _ hy))
  have hall : ∀ x ∈ lexemes s.toList, x.token.closer? = none ∧ x.token.isCloser = false := by
    intro x hx
    have hx := isKeyframe_of_mem_lexemes h hx
    generalize x.token = t at hx
    cases t <;> first | exact ⟨rfl, rfl⟩ | simp [Token.isSkipped, Token.isKeyframe,
      Token.isKeyframeName, Token.isPercentage] at hx
  rw [TokenTree.ofText, Css.TokenTree.ofLexemes_of_nested (hnested hall), Item.ofTrees_eq_map, List.map_map]
  rfl

/-! ## Reading -/

/-- Nothing is read as a simple selector where all items are passed over. -/
theorem readSimple?_of_isSkipped (h : ∀ u ∈ items, u.isSkipped = true) (f : Flags) :
    readSimple? f items = none := by
  rw [readSimple?]
  cases hdrop : dropComments items with
  | nil => rfl
  | cons u r =>
    have hu := h u (head_mem_of_dropComments hdrop)
    rw [Item.isSkipped] at hu
    dsimp only
    generalize u.token = t at hu
    cases t <;> first | rfl | cases hu

theorem readCombinatorFrom_of_isSkipped (h : ∀ u ∈ items, u.isSkipped = true) (blank : Bool)
    (here : List Item) : readCombinatorFrom blank here items = (none, []) := by
  induction items generalizing blank here with
  | nil => rfl
  | cons u items ih =>
    have hrest := ih fun v hv => h v (List.mem_cons_of_mem _ hv)
    have hu := h u List.mem_cons_self
    rw [Item.isSkipped] at hu
    rw [readCombinatorFrom]
    generalize u.token = t at hu
    cases t <;> first | exact hrest _ _ | cases hu

/-- A name alone is a type selector. -/
theorem readMatchOrder_ident (hitems : dropSkipped items = t :: rest) (ht : t.token = .ident name)
    (hrest : ∀ u ∈ rest, u.isSkipped = true) : readMatchOrder {} items = .ok [.tag name] := by
  have hbar : ∀ u ∈ (dropComments rest).head?, Attribute.isBar u = false := by
    intro u hu
    have hmem : u ∈ rest := (List.dropWhile_suffix _).subset (List.mem_of_mem_head? hu)
    have hu := hrest u hmem
    rw [Attribute.isBar]
    rw [Item.isSkipped] at hu
    generalize u.token = t at hu
    cases t <;> first | rfl | cases hu
  have hcompound : readCompound {} items = .ok { components := [.tag name], flags := {}, rest } := by
    rw [readCompound_ident hitems ht hbar]
    cases rest with
    | nil => rfl
    | cons u rest => rw [List.length_cons, readSimples, readSimple?_of_isSkipped hrest]
  rw [readMatchOrder, readSelector, readCompounds, hcompound]
  simp only [bind, Except.bind]
  rw [readCombinator, readCombinatorFrom_of_isSkipped hrest]
  rfl

/-- A percentage is no selector. -/
theorem readMatchOrder_percentage (hitems : dropSkipped items = t :: rest)
    (ht : t.token.isPercentage = true) (raw : List Component) : readMatchOrder {} items ≠ .ok raw := by
  obtain ⟨n, hn⟩ : ∃ n, t.token = .percentage n := by
    generalize t.token = u at ht
    cases u <;> first | exact ⟨_, rfl⟩ | cases ht
  have hnesting : readNesting items = ([], t :: rest) := by
    rw [readNesting, hitems]
    simp [hn]
  have hcomments : dropComments (t :: rest) = t :: rest :=
    dropComments_cons (by simp [Item.isComment, hn, Token.isComment]) rest
  have htype : readType {} (t :: rest) = .ok ([], t :: rest) := by
    rw [readType, readTypeName, hcomments]
    simp only [hn]
    rfl
  have hsimple : readSimple? {} (t :: rest) = none := by
    rw [readSimple?, hcomments]
    simp only [hn]
  have hcompound : readCompound {} items =
      .ok { components := [], flags := {}, rest := t :: rest } := by
    rw [readCompound, hnesting]
    simp only [htype, bind, Except.bind, List.length_cons, readSimples, hsimple]
    rfl
  rintro hraw
  obtain ⟨chain, hchain, -⟩ := exists_of_map_eq_ok hraw
  rw [readSelector, readCompounds, hcompound] at hchain
  cases hchain

/-- A segment with one token besides white space and comments. -/
theorem exists_dropSkipped {u : Token}
    (h : (items.filter fun t => !t.isSkipped).map Item.token = [u]) :
    ∃ t rest, dropSkipped items = t :: rest ∧ t.token = u ∧ ∀ v ∈ rest, v.isSkipped = true := by
  obtain ⟨t, hfilter, rfl⟩ := List.map_eq_singleton_iff.1 h
  obtain ⟨front, rest, rfl, hfront, ht, hrest⟩ := List.filter_eq_cons_iff.1 hfilter
  refine ⟨t, rest, ?_, rfl, by simpa using List.filter_eq_nil_iff.1 hrest⟩
  rw [dropSkipped, List.dropWhile_append_of_pos (by simpa using hfront),
    List.dropWhile_cons_of_neg (by simpa using ht)]

/-- The segments of a text that selects keyframes have one keyframe each. -/
theorem exists_keyframe_of_mem_segments (h : selectsKeyframes s = true) {seg : List Item}
    (hseg : seg ∈ segments (Item.ofTrees (TokenTree.ofText s.toList))) :
    ∃ t rest, dropSkipped seg = t :: rest ∧ t.token.isKeyframe = true ∧
      ∀ v ∈ rest, v.isSkipped = true := by
  have htokens : ((lexemes s.toList).filter fun x => !x.token.isSkipped).map Lexeme.token =
      ((Item.ofTrees (TokenTree.ofText s.toList)).filter fun t => !t.isSkipped).map Item.token := by
    rw [ofTrees_ofText_of_selectsKeyframes h, List.filter_map, List.map_map]
    rfl
  have hparts : tokenParts s = (segments (Item.ofTrees (TokenTree.ofText s.toList))).map
      fun seg => (seg.filter fun t => !t.isSkipped).map Item.token := by
    have hcomma (t : Item) (ht : (t.token == .comma) = true) : (!t.isSkipped) = true := by
      simp [Item.isSkipped, eq_of_beq ht, Token.isSkipped]
    rw [tokenParts, htokens, Sequence.splitWhere_map_filter hcomma]
    rfl
  have hpart := List.all_eq_true.1 h _ (hparts ▸ List.mem_map_of_mem hseg)
  split at hpart
  · rename_i u hu
    obtain ⟨t, rest, hdrop, rfl, hrest⟩ := exists_dropSkipped hu
    exact ⟨t, rest, hdrop, hpart, hrest⟩
  · cases hpart

/-- What is not passed over in such a segment is its keyframe. -/
theorem eq_of_mem_of_dropSkipped (h : dropSkipped items = t :: rest)
    (hrest : ∀ v ∈ rest, v.isSkipped = true) {u : Item} (hu : u ∈ items)
    (hskipped : u.isSkipped = false) : u = t := by
  rw [← List.takeWhile_append_dropWhile (p := Item.isSkipped) (l := items), List.mem_append] at hu
  rw [dropSkipped] at h
  rw [h, List.mem_cons] at hu
  rcases hu with hu | rfl | hu
  · rw [List.mem_takeWhile_imp hu] at hskipped
    cases hskipped
  · rfl
  · rw [hrest u hu] at hskipped
    cases hskipped

/-- A text that selects keyframes has a percentage where one of its segments does. -/
theorem hasPercentage_iff (h : selectsKeyframes s = true) :
    hasPercentage s = true ↔ ∃ seg ∈ segments (Item.ofTrees (TokenTree.ofText s.toList)),
      ∃ t ∈ seg, t.token.isPercentage = true := by
  have hitems := ofTrees_ofText_of_selectsKeyframes h
  rw [hasPercentage, List.any_eq_true]
  constructor
  · rintro ⟨x, hx, hpercentage⟩
    let t : Item := Item.ofTree (.leaf x)
    have hmem : t ∈ (segments (Item.ofTrees (TokenTree.ofText s.toList))).flatten := by
      rw [segments, Sequence.flatten_splitWhere, hitems, List.mem_filter]
      refine ⟨List.mem_map_of_mem hx, ?_⟩
      have hcomma : x.token ≠ .comma := by
        intro hcomma
        rw [hcomma] at hpercentage
        cases hpercentage
      simpa [t, Css.TokenTree.token_leaf] using hcomma
    obtain ⟨seg, hseg, ht⟩ := List.mem_flatten.1 hmem
    exact ⟨seg, hseg, t, ht, by simpa [t, Css.TokenTree.token_leaf] using hpercentage⟩
  · rintro ⟨seg, hseg, t, ht, hpercentage⟩
    have hmem := mem_of_mem_segments hseg ht
    rw [hitems, List.mem_map] at hmem
    obtain ⟨x, hx, rfl⟩ := hmem
    exact ⟨x, hx, by simpa [Css.TokenTree.token_leaf] using hpercentage⟩

/-- As a selector list, a text that selects keyframes is a list of names, unless it has a
percentage. -/
theorem parse_of_selectsKeyframes (h : selectsKeyframes s = true) :
    (hasPercentage s = true → ∀ l, SelectorList.parse s ≠ .ok l) ∧
    (hasPercentage s = false → ∃ l, SelectorList.parse s = .ok l ∧ ∀ chain ∈ l.chains,
      ∃ name, (Token.ident name).isKeyframeName = true ∧ chain = [.tag name]) := by
  constructor
  · intro hpercentage l hl
    rw [SelectorList.parse_eq_ok_iff, readSelectorList] at hl
    obtain ⟨seg, hseg, u, hu, hpercentage⟩ := (hasPercentage_iff h).1 hpercentage
    obtain ⟨t, rest, hdrop, -, hrest⟩ := exists_keyframe_of_mem_segments h hseg
    have hskipped : u.isSkipped = false := by
      rw [Item.isSkipped]
      generalize u.token = t at hpercentage
      cases t <;> first | rfl | cases hpercentage
    obtain rfl := eq_of_mem_of_dropSkipped hdrop hrest hu hskipped
    obtain ⟨raw, hraw⟩ := read_of_readSegments hl seg hseg
    exact readMatchOrder_percentage hdrop hpercentage raw hraw
  · intro hpercentage
    -- Every segment is one name, and reading it says which.
    have hread : ∀ seg ∈ segments (Item.ofTrees (TokenTree.ofText s.toList)),
        ∃ name, (Token.ident name).isKeyframeName = true ∧
          readMatchOrder {} seg = .ok [.tag name] := by
      intro seg hseg
      obtain ⟨t, rest, hdrop, ht, hrest⟩ := exists_keyframe_of_mem_segments h hseg
      have hnone : t.token.isPercentage = false := by
        by_contra hsome
        have hmem : t ∈ seg := head_mem_of_dropSkipped hdrop
        rw [(hasPercentage_iff h).2 ⟨seg, hseg, t, hmem, by simpa using hsome⟩] at hpercentage
        cases hpercentage
      rw [Token.isKeyframe, hnone, Bool.or_false] at ht
      obtain ⟨name, hname⟩ : ∃ name, t.token = .ident name := by
        generalize t.token = u at ht
        cases u <;> first | exact ⟨_, rfl⟩ | cases ht
      exact ⟨name, hname ▸ ht, readMatchOrder_ident hdrop hname hrest⟩
    obtain ⟨ss, hss, -⟩ := readSegments_of_forall (readMatchOrder {})
      (List.forall₂_same.2 fun seg hseg => by
        obtain ⟨name, -, hname⟩ := hread seg hseg
        exact ⟨_, hname⟩)
    refine ⟨⟨ss.map Selector.mk⟩, ?_, ?_⟩
    · rw [SelectorList.parse_eq_ok_iff, SelectorList.map_matchOrder_map_mk]
      exact hss
    · intro chain hchain
      simp only [SelectorList.chains, List.map_map, List.mem_map, Function.comp_apply] at hchain
      obtain ⟨raw, hraw, rfl⟩ := hchain
      obtain ⟨seg, hseg, hsegraw⟩ := exists_of_mem_readSegments hss hraw
      obtain ⟨name, hname, hnameraw⟩ := hread seg hseg
      obtain rfl := Except.ok.inj (hsegraw.symm.trans hnameraw)
      exact ⟨name, hname, rfl⟩

/-! ## Adapting -/

/-- A keyframe that has a name is no anchor. -/
theorem noAnchor_of_isKeyframeName (h : (Token.ident name).isKeyframeName = true)
    (bodyClass : String) : Chain.NoAnchor bodyClass [.tag name] := by
  intro x hx
  obtain rfl := List.mem_singleton.1 hx
  by_contra hanchor
  have hbody : name = "body" := by
    simpa [Component.isAnchor, Component.isBodyTag, Component.isBodyClass] using hanchor
  rw [hbody] at h
  exact absurd h (by decide)

/-- Whether a token can be part of a text that selects keyframes by their names. -/
def Css.Token.isNamePart (t : Token) : Bool := t.isSkipped || t == .comma || t.isKeyframeName

/-- Where a text begins with a letter that the names of keyframes do not begin with, it begins with
no part of a text that selects keyframes by their names. -/
theorem isNamePart_scan_letter {d : Char} (hstarts : Css.startsName d = true)
    (hd : (Css.literal d).toLower ∉ ['f', 't']) (r : List Char) :
    (Css.scan d r).token.isNamePart = false := by
  have hslash : d ≠ '\\' := by
    rintro rfl
    cases hstarts
  have hminus : d ≠ '-' := by
    rintro rfl
    cases hstarts
  have hident : Css.startsIdent (d :: r) = true := (Css.startsIdent_cons hminus hslash).trans hstarts
  have hurl (opener v : List Char) : (Css.scanUrl opener v).token.isNamePart = false := by
    simp only [Css.scanUrl]
    split
    · rfl
    · split <;> rfl
  rw [Css.scan_of_startsIdent hident (by simp [hminus])]
  simp only [Css.scanIdentLike]
  split
  · split
    · rfl
    · rfl
    · rfl
    · exact hurl _ _
  · have hspan := Css.spanName_cons (r := r) hslash
    rw [Css.inName, hstarts] at hspan
    have hname : Css.unescape (Css.spanName (d :: r)).1 =
        Css.literal d :: Css.unescape (Css.spanName r).1 := by
      rw [hspan]
      simp [Css.unescape, Css.unescapeFrom, Css.Escape.meaning, Css.Escape.claims, hslash]
    have hne (w : String) (c : Char) (v : List Char) (hw : w.toList = c :: v)
        (hc : c ∈ ['f', 't']) :
        Names.lower (String.ofList (Css.unescape (Css.spanName (d :: r)).1)) ≠ w := by
      rintro rfl
      rw [hname, Names.lower, String.toList_ofList, String.toList_ofList, List.map_cons] at hw
      exact hd ((List.cons.inj hw).1 ▸ hc)
    have hfrom := hne "from" 'f' _ rfl (by decide)
    have hto := hne "to" 't' _ rfl (by decide)
    simp [Token.isNamePart, Token.isSkipped, Token.isKeyframeName, hfrom, hto]

theorem isNamePart_scan_point (r : List Char) : (Css.scan '.' r).token.isNamePart = false := by
  have hscan : Css.scan '.' r = if Css.startsNumber ('.' :: r) = true then Css.scanNumeric ('.' :: r)
      else ⟨.delim '.', ['.']⟩ := rfl
  rw [hscan]
  split
  · simp only [Css.scanNumeric]
    split
    · rfl
    · split <;> rfl
  · rfl

/-- No text that selects keyframes by their names begins as a companion of a client does. -/
theorem head?_of_selectsKeyframes (h : selectsKeyframes s = true) (hnone : hasPercentage s = false)
    {d : Char} (hd : s.toList.head? = some d) : d ∉ Client.frontChars := by
  obtain ⟨r, hr⟩ := List.head?_eq_some_iff.1 hd
  have hmem : Css.scan d r ∈ lexemes s.toList := by
    rw [hr, Css.lexemes_cons]
    exact List.mem_cons_self
  have hpercentage : (Css.scan d r).token.isPercentage = false := by
    rw [hasPercentage, List.any_eq_false] at hnone
    simpa using hnone _ hmem
  have hpart : (Css.scan d r).token.isNamePart = true := by
    have hkeyframe := isKeyframe_of_mem_lexemes h hmem
    rw [Token.isKeyframe, hpercentage, Bool.or_false] at hkeyframe
    simpa [Token.isNamePart, or_assoc] using hkeyframe
  intro hfront
  simp only [Client.frontChars, List.mem_cons, List.not_mem_nil, or_false] at hfront
  rcases hfront with rfl | rfl | rfl | rfl
  · rw [isNamePart_scan_letter rfl (by decide)] at hpart
    cases hpart
  · rw [isNamePart_scan_letter rfl (by decide)] at hpart
    cases hpart
  · cases hpart
  · rw [isNamePart_scan_point] at hpart
    cases hpart

/-- Whether a client combines selectors with a text, and that text is a selector list. -/
def Client.hasCompanion (c : Client) (bodyClass : String) : Bool :=
  (c.conversion bodyClass).companion?.any fun w => (SelectorList.parse w).isOk

namespace Client

variable {c : Client} {bodyClass : String}

theorem hasCompanion_iff : c.hasCompanion bodyClass = true ↔
    ∃ w front, (c.conversion bodyClass).companion? = some w ∧ SelectorList.parse w = .ok front := by
  have hok (w : String) : (SelectorList.parse w).isOk = true ↔ ∃ l, SelectorList.parse w = .ok l := by
    cases SelectorList.parse w with
    | error e => exact iff_of_false nofun nofun
    | ok l => exact iff_of_true rfl ⟨l, rfl⟩
  rw [hasCompanion, Option.any_eq_true]
  simp only [hok]
  constructor
  · rintro ⟨w, hw, front, hfront⟩
    exact ⟨w, front, hw, hfront⟩
  · rintro ⟨w, front, hw, hfront⟩
    exact ⟨w, hw, front, hfront⟩

/-- The names of keyframes are a selector list without anchors. -/
theorem parse_of_adapter_eq_ok (hc : c.hoists = true) (h : selectsKeyframes s = true) {t : String}
    (ht : c.adapter bodyClass s = .ok t) : hasPercentage s = false ∧ ∃ l,
      SelectorList.parse s = .ok l ∧ ∀ chain ∈ l.chains, Chain.NoAnchor bodyClass chain := by
  obtain ⟨l, hl⟩ := exists_parse_of_adapter hc ht
  obtain ⟨hfails, hreads⟩ := parse_of_selectsKeyframes h
  have hnone : hasPercentage s = false := by
    by_contra hsome
    exact hfails (by simpa using hsome) l hl
  obtain ⟨l', hl', hchains⟩ := hreads hnone
  refine ⟨hnone, l', hl', fun chain hchain => ?_⟩
  obtain ⟨name, hname, rfl⟩ := hchains chain hchain
  exact noAnchor_of_isKeyframeName hname bodyClass

/-- A client adapts a text that selects keyframes if what it combines selectors with is a selector
list and the text has no percentage. -/
theorem isOk_adapter_iff (hc : c.hoists = true) (h : selectsKeyframes s = true) :
    (∃ t, c.adapter bodyClass s = .ok t) ↔
      c.hasCompanion bodyClass = true ∧ hasPercentage s = false := by
  rw [hasCompanion_iff]
  constructor
  · rintro ⟨t, ht⟩
    obtain ⟨hnone, l, hl, hanchor⟩ := parse_of_adapter_eq_ok hc h ht
    obtain ⟨w, front, hw, hfront, -⟩ := (adapter_eq_ok_iff hc hl hanchor).1 ht
    exact ⟨⟨w, front, hw, hfront⟩, hnone⟩
  · rintro ⟨⟨w, front, hw, hfront⟩, hnone⟩
    obtain ⟨l, hl, hchains⟩ := (parse_of_selectsKeyframes h).2 hnone
    refine ⟨_, (adapter_eq_ok_iff hc hl fun chain hchain => ?_).2 ⟨w, front, hw, hfront, rfl⟩⟩
    obtain ⟨name, hname, rfl⟩ := hchains chain hchain
    exact noAnchor_of_isKeyframeName hname bodyClass

/-- What a client makes of a text that selects keyframes is another text. -/
theorem adapter_ne_self (hc : c.hoists = true) (h : selectsKeyframes s = true) :
    c.adapter bodyClass s ≠ .ok s := by
  intro hself
  obtain ⟨hnone, l, hl, hanchor⟩ := parse_of_adapter_eq_ok hc h hself
  obtain ⟨d, hd, hhead⟩ := head?_of_adapter hc hl hanchor hself
  exact head?_of_selectsKeyframes h hnone hhead hd

end Client

end MailCss
