import MailCss.Proofs.Expansion.Landings

/-!
# What keeps a declaration to its clients

For a media client the at-rule that is left keeps a declaration to the client. For another client
only an adapted selector does, so a style rule has to stand between the client at-rule and the
declaration. Where there is none, as for a declaration right in the block of the at-rule, the
declaration comes out as if the at-rule were not there: it is for all clients, and nothing is found.

Main statement: `expand_targeting`.
-/

namespace MailCss

open Node

/-- Whether a node is a declaration. -/
def Node.isDeclaration : Node → Bool
  | .declaration .. => true
  | _ => false

namespace Client

/-- Whether a client's copy of an at-rule is replaced by what it holds, with selectors adapted. -/
def hoists : Client → Bool
  | .yahoo | .webkit => false
  | .aol | .gmail | .outlookCom | .thunderbird => true

/-- How a client adapts a selector. A media client leaves it as it is. -/
def adapter (c : Client) (bodyClass : String) : String → Except AdaptError String :=
  match c.conversion bodyClass with
  | .media _ => .ok
  | .retargetBody replacement => Adapt.retargetBody bodyClass replacement
  | .wrap ancestor => Adapt.addWrapper ancestor

theorem convert_of_hoists {c : Client} (h : c.hoists = true) (bodyClass : String) (r : AtRule) :
    c.convert bodyClass r = adaptAll (c.adapter bodyClass) (r.block.getD []) := by
  cases c with
  | yahoo | webkit => cases h
  | aol | gmail | outlookCom | thunderbird => rfl

theorem aim_of_hoists {c : Client} (h : c.hoists = true) (bodyClass : String) :
    c.aim bodyClass = adaptFirst (c.adapter bodyClass) := by
  cases c with
  | yahoo | webkit => cases h
  | aol | gmail | outlookCom | thunderbird => rfl

theorem aim_of_hoists_eq_false {c : Client} (h : c.hoists = false) (bodyClass : String) :
    ∃ query, c.conversion bodyClass = .media query ∧
      c.aim bodyClass = (.atRule "media" query :: ·) := by
  cases c with
  | yahoo | webkit => exact ⟨_, rfl, rfl⟩
  | aol | gmail | outlookCom | thunderbird => cases h

theorem ofName?_name (c : Client) : ofName? c.name = some c := by
  cases c <;> decide

theorem name_of_ofName? {c : Client} {s : String} (h : ofName? s = some c) : c.name = s := by
  simpa using List.find?_some h

end Client

/-! ## Declarations in the block of the at-rule -/

theorem filter_isDeclaration_adaptAll (f : String → Except AdaptError String) (ns : List Node) :
    (adaptAll f ns).nodes.filter isDeclaration = ns.filter isDeclaration := by
  induction ns with
  | nil => rfl
  | cons n ns ih =>
    cases n with
    | rule selector nodes location =>
      simp only [adaptAll, adapt]
      split <;> simpa [List.filter_cons, isDeclaration] using ih
    | atRule name params block location =>
      cases block <;> simpa [adaptAll, adapt, List.filter_cons, isDeclaration] using ih
    | declaration property value =>
      simpa [adaptAll, adapt, List.filter_cons, isDeclaration] using ih
    | comment text => simpa [adaptAll, adapt, List.filter_cons, isDeclaration] using ih

/-! ## Frames that keep a declaration to a client -/

/-- A selector that was adapted for a client, and perhaps for others after that. -/
inductive AdaptedFor (bodyClass : String) (c : Client) : String → Prop where
  | own {s t : String} (hhoists : c.hoists = true) (hadapt : c.adapter bodyClass s = .ok t) :
    AdaptedFor bodyClass c t
  | again {s t : String} (c' : Client) (h : AdaptedFor bodyClass c s)
    (hadapt : c'.adapter bodyClass s = .ok t) : AdaptedFor bodyClass c t

/-- Frames that keep what is in them to a client: its media at-rule, or a style rule with a selector
that was adapted for it. -/
def Guards (bodyClass : String) (c : Client) (fs : List Frame) : Prop :=
  (∃ query, c.conversion bodyClass = .media query ∧ .atRule "media" query ∈ fs) ∨
    ∃ s, .rule s ∈ fs ∧ AdaptedFor bodyClass c s

/-- Frames of which the outermost style rule has a selector that can be adapted. -/
def Adaptable (f : String → Except AdaptError String) : List Frame → Prop
  | [] => True
  | .rule selector :: _ => ∃ t, f selector = .ok t
  | .atRule .. :: fs => Adaptable f fs

/-- Whether a style rule is among frames. -/
def hasRule (fs : List Frame) : Bool := fs.any Frame.isRule

variable {o : Options} {c : Client}

theorem hasRule_adaptFirst (f : String → Except AdaptError String) (fs : List Frame) :
    hasRule (adaptFirst f fs) = hasRule fs := by
  induction fs with
  | nil => rfl
  | cons g fs ih =>
    cases g with
    | rule selector => rfl
    | atRule name params => simpa [adaptFirst, hasRule, Frame.isRule] using ih

theorem adaptFirst_of_not_hasRule (f : String → Except AdaptError String) {fs : List Frame}
    (h : hasRule fs = false) : adaptFirst f fs = fs := by
  induction fs with
  | nil => rfl
  | cons g fs ih =>
    cases g with
    | rule selector => cases h
    | atRule name params => rw [adaptFirst, ih h]

/-- Every frame stays, but for a style rule that gets an adapted selector. -/
theorem mem_adaptFirst {f : String → Except AdaptError String} {g : Frame} {fs : List Frame}
    (hfs : Adaptable f fs) (h : g ∈ fs) :
    g ∈ adaptFirst f fs ∨ ∃ s t, g = .rule s ∧ f s = .ok t ∧ .rule t ∈ adaptFirst f fs := by
  induction fs with
  | nil => cases h
  | cons k fs ih =>
    cases k with
    | rule selector =>
      obtain ⟨t, ht⟩ := hfs
      rcases List.mem_cons.1 h with rfl | h
      · exact .inr ⟨selector, t, rfl, ht, by simp [adaptFirst, ht, Except.toOption]⟩
      · exact .inl (List.mem_cons_of_mem _ h)
    | atRule name params =>
      rcases List.mem_cons.1 h with rfl | h
      · exact .inl List.mem_cons_self
      · rcases ih hfs h with h | ⟨s, t, hg, hst, ht⟩
        · exact .inl (List.mem_cons_of_mem _ h)
        · exact .inr ⟨s, t, hg, hst, List.mem_cons_of_mem _ ht⟩

theorem Guards.cons {bodyClass : String} {fs : List Frame} (h : Guards bodyClass c fs)
    (g : Frame) : Guards bodyClass c (g :: fs) := by
  rcases h with ⟨query, hc, hmem⟩ | ⟨s, hmem, hs⟩
  · exact .inl ⟨query, hc, List.mem_cons_of_mem _ hmem⟩
  · exact .inr ⟨s, List.mem_cons_of_mem _ hmem, hs⟩

/-- What another client adapts is still kept to the first one. -/
theorem Guards.adaptFirst {bodyClass : String} {fs : List Frame} (h : Guards bodyClass c fs)
    {c' : Client} (hfs : Adaptable (c'.adapter bodyClass) fs) :
    Guards bodyClass c (adaptFirst (c'.adapter bodyClass) fs) := by
  rcases h with ⟨query, hc, hmem⟩ | ⟨s, hmem, hs⟩
  · rcases mem_adaptFirst hfs hmem with hmem | ⟨s, t, hrule, -, -⟩
    · exact .inl ⟨query, hc, hmem⟩
    · cases hrule
  · rcases mem_adaptFirst hfs hmem with hmem | ⟨s', t, hrule, hadapt, hmem⟩
    · exact .inr ⟨s, hmem, hs⟩
    · cases hrule
      exact .inr ⟨t, hmem, hs.again c' hadapt⟩

/-- A client that adapts a style rule's selector keeps what is in the style rule to itself. -/
theorem guards_adaptFirst {bodyClass : String} (hc : c.hoists = true) {fs : List Frame}
    (hfs : Adaptable (c.adapter bodyClass) fs) (hrule : hasRule fs = true) :
    Guards bodyClass c (adaptFirst (c.adapter bodyClass) fs) := by
  induction fs with
  | nil => cases hrule
  | cons g fs ih =>
    cases g with
    | rule selector =>
      obtain ⟨t, ht⟩ := hfs
      exact .inr ⟨t, by simp [MailCss.adaptFirst, ht, Except.toOption], .own hc ht⟩
    | atRule name params => exact (ih hfs hrule).cons _

/-! ## No findings -/

/-- Frames that no finding comes from: the client at-rules name known clients, and those that adapt
selectors can adapt what lands in the at-rule. -/
def Silent (o : Options) : List Frame → Prop
  | [] => True
  | .rule _ :: fs => Silent o fs
  | .atRule name params :: fs =>
    Silent o fs ∧ (name = o.atRuleName → ∀ client ∈ splitClients params,
      ∃ c, Client.ofName? client = some c ∧
        (c.hoists = true → ∀ gs ∈ lands o fs, Adaptable (c.adapter o.bodyClass) gs))

mutual

theorem adaptable_of_adapt {f : String → Except AdaptError String} :
    ∀ n : Node, (n.adapt f).2 = [] → ∀ x ∈ n.settings, Adaptable f x.frames
  | .rule selector nodes location, h, x, hx => by
    obtain ⟨y, -, rfl⟩ := List.mem_map.1 hx
    rw [adapt] at h
    split at h
    · rename_i t ht
      exact ⟨t, ht⟩
    · cases h
  | .atRule name params (some nodes) location, h, x, hx => by
    obtain ⟨y, hy, rfl⟩ := List.mem_map.1 hx
    exact adaptable_of_adaptAll nodes h y hy
  | .atRule _ _ none _, _, _, hx => by cases hx
  | .declaration .., _, x, hx => by
    obtain rfl := List.mem_singleton.1 hx
    trivial
  | .comment _, _, _, hx => by cases hx

/-- Where adapting finds nothing, the selectors around every declaration could be adapted. -/
theorem adaptable_of_adaptAll {f : String → Except AdaptError String} :
    ∀ ns : List Node, (adaptAll f ns).findings = [] → ∀ x ∈ settingsAll ns, Adaptable f x.frames
  | [], _, _, hx => by cases hx
  | n :: ns, h, x, hx => by
    obtain ⟨hn, hns⟩ := List.append_eq_nil_iff.1 h
    rcases List.mem_append.1 hx with hx | hx
    · exact adaptable_of_adapt n hn x hx
    · exact adaptable_of_adaptAll ns hns x hx

end

/-- Where a copy finds nothing, its client is known and could adapt all that is in the at-rule. -/
theorem adaptable_of_copyFor {r : AtRule} {client : String}
    (h : (r.copyFor o client).findings = []) :
    ∃ c, Client.ofName? client = some c ∧ (c.hoists = true →
      ∀ x ∈ settingsAll (r.block.getD []), Adaptable (c.adapter o.bodyClass) x.frames) := by
  have hfindings := (List.append_eq_nil_iff.1 h).2
  cases hc : Client.ofName? client with
  | none =>
    rw [hc] at hfindings
    cases hfindings
  | some c =>
    refine ⟨c, rfl, fun hhoists => ?_⟩
    rw [hc] at hfindings
    simp only [Client.convert_of_hoists hhoists] at hfindings
    exact adaptable_of_adaptAll _ hfindings

theorem adaptable_of_copiesFor {r : AtRule} {clients : List String}
    (h : (r.copiesFor o clients).findings = []) {client : String} (hclient : client ∈ clients) :
    ∃ c, Client.ofName? client = some c ∧ (c.hoists = true →
      ∀ x ∈ settingsAll (r.block.getD []), Adaptable (c.adapter o.bodyClass) x.frames) := by
  induction clients with
  | nil => cases hclient
  | cons k clients ih =>
    obtain ⟨hhead, htail⟩ := List.append_eq_nil_iff.1 h
    rcases List.mem_cons.1 hclient with rfl | hclient
    · exact adaptable_of_copyFor hhead
    · exact ih htail hclient

theorem adaptable_of_expandNamed {r : AtRule} (hname : r.name = o.atRuleName)
    (h : (r.expandNamed o).findings = []) {client : String}
    (hclient : client ∈ splitClients r.params) :
    ∃ c, Client.ofName? client = some c ∧ (c.hoists = true →
      ∀ x ∈ settingsAll (r.block.getD []), Adaptable (c.adapter o.bodyClass) x.frames) := by
  rw [AtRule.expandNamed, if_pos hname, AtRule.expand] at h
  split at h
  · cases h
  · exact adaptable_of_copiesFor h hclient

mutual

theorem silent_of_expand :
    ∀ n : Node, (n.expand o).findings = [] → ∀ x ∈ n.settings, Silent o x.frames
  | .rule selector nodes location, h, x, hx => by
    obtain ⟨y, hy, rfl⟩ := List.mem_map.1 hx
    exact silent_of_expandAll nodes h y hy
  | .atRule name params (some nodes) location, h, x, hx => by
    obtain ⟨y, hy, rfl⟩ := List.mem_map.1 hx
    obtain ⟨hin, hown⟩ := List.append_eq_nil_iff.1 h
    refine ⟨silent_of_expandAll nodes hin y hy, fun hname client hclient => ?_⟩
    obtain ⟨c, hc, hadapt⟩ := adaptable_of_expandNamed hname hown hclient
    refine ⟨c, hc, fun hhoists gs hgs => ?_⟩
    have hlanded : (⟨gs, y.property, y.value⟩ : Setting) ∈ settingsAll (expandAll o nodes).nodes :=
      (mem_settingsAll_expandAll nodes).2 ⟨y, hy, List.mem_map_of_mem hgs⟩
    exact hadapt hhoists _ hlanded
  | .atRule _ _ none _, _, _, hx => by cases hx
  | .declaration .., _, x, hx => by
    obtain rfl := List.mem_singleton.1 hx
    trivial
  | .comment _, _, _, hx => by cases hx

/-- Where expansion finds nothing, no finding comes from the frames of any declaration. -/
theorem silent_of_expandAll :
    ∀ ns : List Node, (expandAll o ns).findings = [] → ∀ x ∈ settingsAll ns, Silent o x.frames
  | [], _, _, hx => by cases hx
  | n :: ns, h, x, hx => by
    obtain ⟨hn, hns⟩ := List.append_eq_nil_iff.1 h
    rcases List.mem_append.1 hx with hx | hx
    · exact silent_of_expand n hn x hx
    · exact silent_of_expandAll ns hns x hx

end

/-! ## Client at-rules around a declaration -/

theorem hasRule_aimFor (o : Options) (client : String) (fs : List Frame) :
    hasRule (aimFor o client fs) = hasRule fs := by
  cases hc : Client.ofName? client with
  | none => simp only [aimFor, hc, hasRule, List.any_cons, Frame.isRule, Bool.false_or]
  | some c =>
    simp only [aimFor, hc]
    cases hhoists : c.hoists with
    | true => rw [Client.aim_of_hoists hhoists, hasRule_adaptFirst]
    | false =>
      obtain ⟨query, -, haim⟩ := Client.aim_of_hoists_eq_false hhoists o.bodyClass
      rw [haim]
      rfl

theorem hasRule_of_mem_moves {name params : String} {f : List Frame → List Frame}
    (hf : f ∈ moves o name params) (fs : List Frame) : hasRule (f fs) = hasRule fs := by
  rw [moves] at hf
  split at hf
  · obtain ⟨client, -, rfl⟩ := List.mem_map.1 hf
    exact hasRule_aimFor o client fs
  · obtain rfl := List.mem_singleton.1 hf
    rfl

/-- Expansion neither adds nor takes away style rules around a declaration. -/
theorem hasRule_of_mem_lands {fs gs : List Frame} (h : gs ∈ lands o fs) :
    hasRule gs = hasRule fs := by
  induction fs generalizing gs with
  | nil =>
    obtain rfl := List.mem_singleton.1 h
    rfl
  | cons g fs ih =>
    cases g with
    | rule selector =>
      obtain ⟨ks, -, rfl⟩ := mem_lands_rule.1 h
      rfl
    | atRule name params =>
      obtain ⟨f, hf, ks, hks, rfl⟩ := mem_lands_atRule.1 h
      rw [hasRule_of_mem_moves hf, ih hks]
      rfl

/-- What is kept to a client stays so in the at-rules around it. -/
theorem Guards.of_mem_moves {name params : String} {fs gs : List Frame}
    (hsilent : Silent o (.atRule name params :: fs)) (hgs : gs ∈ lands o fs)
    (h : Guards o.bodyClass c gs) {f : List Frame → List Frame} (hf : f ∈ moves o name params) :
    Guards o.bodyClass c (f gs) := by
  rw [moves] at hf
  split at hf
  · rename_i hname
    obtain ⟨client, hclient, rfl⟩ := List.mem_map.1 hf
    obtain ⟨c', hc', hadapt⟩ := hsilent.2 hname client hclient
    rw [aimFor, hc']
    cases hhoists : c'.hoists with
    | true =>
      simp only [Client.aim_of_hoists hhoists]
      exact h.adaptFirst (hadapt hhoists gs hgs)
    | false =>
      obtain ⟨query, -, haim⟩ := Client.aim_of_hoists_eq_false hhoists o.bodyClass
      simp only [haim]
      exact h.cons _
  · obtain rfl := List.mem_singleton.1 hf
    exact h.cons _

/-- Whether each client of a list can keep to itself what has these frames in the at-rule: it is a
media client or finds a style rule. -/
def Keeps (params : String) (inner : List Frame) : Prop :=
  ∀ c : Client, c.name ∈ splitClients params → c.hoists = true → hasRule inner = true

/-- What a client at-rule can keep to its clients, it keeps to one of them on every landing. -/
theorem exists_guards_of_mem_lands {params : String} {inner outer : List Frame}
    (hkeeps : Keeps params inner)
    (hsilent : Silent o (outer ++ .atRule o.atRuleName params :: inner)) {fs : List Frame}
    (h : fs ∈ lands o (outer ++ .atRule o.atRuleName params :: inner)) :
    ∃ c : Client, c.name ∈ splitClients params ∧ Guards o.bodyClass c fs := by
  induction outer generalizing fs with
  | nil =>
    obtain ⟨f, hf, gs, hgs, rfl⟩ := mem_lands_atRule.1 h
    obtain ⟨client, hclient, rfl⟩ := mem_moves_client.1 hf
    obtain ⟨c, hc, hadapt⟩ := hsilent.2 rfl client hclient
    obtain rfl := Client.name_of_ofName? hc
    refine ⟨c, hclient, ?_⟩
    rw [aimFor, hc]
    cases hhoists : c.hoists with
    | true =>
      have hrule : hasRule gs = true := by
        rw [hasRule_of_mem_lands hgs]
        exact hkeeps c hclient hhoists
      simp only [Client.aim_of_hoists hhoists]
      exact guards_adaptFirst hhoists (hadapt hhoists gs hgs) hrule
    | false =>
      obtain ⟨query, hquery, haim⟩ := Client.aim_of_hoists_eq_false hhoists o.bodyClass
      simp only [haim]
      exact .inl ⟨query, hquery, List.mem_cons_self⟩
  | cons g outer ih =>
    cases g with
    | rule selector =>
      obtain ⟨gs, hgs, rfl⟩ := mem_lands_rule.1 h
      obtain ⟨c, hclient, hguards⟩ := ih hsilent hgs
      exact ⟨c, hclient, hguards.cons _⟩
    | atRule name ps =>
      obtain ⟨f, hf, gs, hgs, rfl⟩ := mem_lands_atRule.1 h
      obtain ⟨c, hclient, hguards⟩ := ih hsilent.1 hgs
      exact ⟨c, hclient, hguards.of_mem_moves hsilent hgs hf⟩

/-- What a client at-rule cannot keep to its clients lands where it would without the at-rule. -/
theorem lands_subset_of_not_keeps {params : String} {inner : List Frame}
    (h : ¬ Keeps params inner) (outer : List Frame) :
    lands o (outer ++ inner) ⊆ lands o (outer ++ .atRule o.atRuleName params :: inner) := by
  obtain ⟨c, hclient, hhoists, hrule⟩ : ∃ c : Client, c.name ∈ splitClients params ∧
      c.hoists = true ∧ hasRule inner = false := by
    simpa [Keeps] using h
  induction outer with
  | nil =>
    intro gs hgs
    rw [List.nil_append] at hgs
    have hsame : aimFor o c.name gs = gs := by
      have hnone : hasRule gs = false := by rw [hasRule_of_mem_lands hgs, hrule]
      simp only [aimFor, Client.ofName?_name, Client.aim_of_hoists hhoists]
      exact adaptFirst_of_not_hasRule _ hnone
    have hmove : aimFor o c.name ∈ moves o o.atRuleName params :=
      mem_moves_client.2 ⟨_, hclient, rfl⟩
    exact mem_lands_atRule.2 ⟨_, hmove, gs, hgs, hsame⟩
  | cons g outer ih =>
    cases g with
    | rule selector => exact List.map_subset _ ih
    | atRule name ps =>
      intro gs hgs
      obtain ⟨f, hf, ks, hks, rfl⟩ := mem_lands_atRule.1 hgs
      exact mem_lands_atRule.2 ⟨f, hf, ks, ih hks, rfl⟩

/-! ## Whole style sheets -/

/-- A client that adapts selectors gets the declarations in the block of its at-rule as bare as they
are there. Anywhere in a style sheet, a declaration comes out where it lands and nowhere else. If a
client at-rule around it cannot keep it to one of its clients, it comes out wherever it would
without the at-rule; if it can and nothing is found, every landing is kept to one of them. -/
theorem Stylesheet.expand_targeting (o : Options) :
    (∀ (c : Client) (bodyClass : String) (r : AtRule), c.hoists = true →
      (c.convert bodyClass r).nodes.filter isDeclaration =
        (r.block.getD []).filter isDeclaration) ∧
    ∀ s : Stylesheet,
      (∀ y, y ∈ settingsAll (s.expand o).nodes ↔ ∃ x ∈ settingsAll s.nodes, y ∈ x.landings o) ∧
      ∀ (outer inner : List Frame) (params property value : String),
        ⟨outer ++ .atRule o.atRuleName params :: inner, property, value⟩ ∈ settingsAll s.nodes →
        (¬ Keeps params inner →
          ∀ fs ∈ lands o (outer ++ inner),
            ⟨fs, property, value⟩ ∈ settingsAll (s.expand o).nodes) ∧
        (Keeps params inner → (s.expand o).diagnostics = [] →
          ∀ fs ∈ lands o (outer ++ .atRule o.atRuleName params :: inner),
            ∃ c : Client, c.name ∈ splitClients params ∧ Guards o.bodyClass c fs) := by
  constructor
  · intro c bodyClass r hhoists
    rw [Client.convert_of_hoists hhoists, filter_isDeclaration_adaptAll]
  · intro s
    refine ⟨fun y => mem_settingsAll_expandAll s.nodes, ?_⟩
    intro outer inner params property value hmem
    constructor
    · intro hkeeps fs hfs
      have hlands := lands_subset_of_not_keeps hkeeps outer hfs
      exact (mem_settingsAll_expandAll s.nodes).2 ⟨_, hmem, List.mem_map_of_mem hlands⟩
    · intro hkeeps hnone fs hfs
      have hfindings : (s.expand o).findings = [] := List.map_eq_nil_iff.1 hnone
      exact exists_guards_of_mem_lands hkeeps (silent_of_expandAll s.nodes hfindings _ hmem) hfs

/-- In the block of one at-rule, a declaration that is for all clients afterwards, and one in a
style rule that is kept to the client; nothing is found. -/
theorem expand_targeting_nested :
    let s : Stylesheet :=
      ⟨[.rule ".a"
        [.atRule "client" "gmail"
          (some [.declaration "color" "red", .rule ".b" [.declaration "top" "0"] ⟨1, 27⟩]) ⟨1, 3⟩]
        ⟨1, 0⟩]⟩
    (s.expand {}).diagnostics = [] ∧
      ⟨[.rule ".a"], "color", "red"⟩ ∈ settingsAll (s.expand {}).nodes ∧
      ∀ fs ∈ lands {} [.rule ".a", .atRule "client" "gmail", .rule ".b"],
        ∃ c : Client, c.name ∈ splitClients "gmail" ∧ Guards "body" c fs := by
  intro s
  have hnone : (s.expand {}).diagnostics = [] := by decide +kernel
  obtain ⟨-, htargeting⟩ := Stylesheet.expand_targeting {}
  have hbare : ¬ Keeps "gmail" [] := fun h => Bool.noConfusion (h .gmail (by decide) rfl)
  have hinner : Keeps "gmail" [.rule ".b"] := fun _ _ _ => rfl
  refine ⟨hnone, ?_, ?_⟩
  · have hcolor := (htargeting s).2 [.rule ".a"] [] "gmail" "color" "red" (by decide)
    exact hcolor.1 hbare _ (by decide)
  · have htop := (htargeting s).2 [.rule ".a"] [.rule ".b"] "gmail" "top" "0" (by decide)
    exact htop.2 hinner hnone

end MailCss
