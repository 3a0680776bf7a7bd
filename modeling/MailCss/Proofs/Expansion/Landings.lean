import MailCss.Expand

/-!
# Where declarations come out

What a declaration says depends on what stands around it: the selectors of style rules, and
at-rules. These are its *frames*, the outermost first. Expansion moves a declaration to other
frames, once for each choice of a client for the client at-rules around it; it *lands* there.

For a media client the at-rule becomes another one. For the others it goes away, and the outermost
style rule in it, if there is one, gets another selector.

Main statement: `mem_settingsAll_expandAll` (the declarations of an expansion are those of the
source where they land, and no others).
-/

namespace MailCss

open Text (Location)

/-- What stands around a node: a style rule or an at-rule. -/
inductive Frame where
  | rule (selector : String)
  | atRule (name params : String)
  deriving DecidableEq, Repr

/-- Whether a frame is a style rule. -/
def Frame.isRule : Frame → Bool
  | .rule _ => true
  | .atRule .. => false

/-- A declaration with its frames, the outermost first. -/
structure Setting where
  frames : List Frame
  property : String
  value : String
  deriving DecidableEq, Repr

/-- The same declaration elsewhere. -/
def Setting.map (f : List Frame → List Frame) (x : Setting) : Setting :=
  { x with frames := f x.frames }

theorem map_map_settings (f g : List Frame → List Frame) (xs : List Setting) :
    (xs.map (Setting.map g)).map (Setting.map f) = xs.map (Setting.map fun fs => f (g fs)) :=
  List.map_map

namespace Node

mutual

/-- The declarations in a node. -/
def settings : Node → List Setting
  | .rule selector nodes _ => (settingsAll nodes).map (Setting.map (.rule selector :: ·))
  | .atRule name params (some nodes) _ =>
    (settingsAll nodes).map (Setting.map (.atRule name params :: ·))
  | .atRule _ _ none _ | .comment _ => []
  | .declaration property value => [⟨[], property, value⟩]

/-- The declarations among siblings and in them. -/
def settingsAll : List Node → List Setting
  | [] => []
  | n :: ns => n.settings ++ settingsAll ns

end

@[simp] theorem settingsAll_append (ns ks : List Node) :
    settingsAll (ns ++ ks) = settingsAll ns ++ settingsAll ks := by
  induction ns with
  | nil => rfl
  | cons n ns ih => simp [settingsAll, ih]

theorem settingsAll_singleton (n : Node) : settingsAll [n] = n.settings := by
  simp [settingsAll]

end Node

open Node

theorem AtRule.settings_node (r : AtRule) :
    r.node.settings =
      (settingsAll (r.block.getD [])).map (Setting.map (.atRule r.name r.params :: ·)) := by
  obtain ⟨name, params, _ | nodes, location⟩ := r <;> rfl

/-! ## Where frames go -/

/-- Frames with the selector of the outermost style rule adapted, if that can be done. -/
def adaptFirst (f : String → Except AdaptError String) : List Frame → List Frame
  | [] => []
  | .rule selector :: fs => .rule ((f selector).toOption.getD selector) :: fs
  | .atRule name params :: fs => .atRule name params :: adaptFirst f fs

/-- What a client's copy of an at-rule does to the frames in it. -/
def Client.aim (c : Client) (bodyClass : String) : List Frame → List Frame :=
  match c.conversion bodyClass with
  | .media query => (.atRule "media" query :: ·)
  | .retargetBody replacement => adaptFirst (Adapt.retargetBody bodyClass replacement)
  | .wrap ancestor => adaptFirst (Adapt.addWrapper ancestor)

/-- What the copy of a client at-rule for the client with a name does to the frames in it. -/
def aimFor (o : Options) (name : String) : List Frame → List Frame :=
  match Client.ofName? name with
  | some c => c.aim o.bodyClass
  | none => (.atRule o.atRuleName name :: ·)

/-- What the copies that replace an at-rule do to the frames in it. -/
def moves (o : Options) (name params : String) : List (List Frame → List Frame) :=
  if name = o.atRuleName then (splitClients params).map (aimFor o)
  else [(.atRule name params :: ·)]

/-- The frames in an expansion of what has some frames in the source. -/
def lands (o : Options) : List Frame → List (List Frame)
  | [] => [[]]
  | .rule selector :: fs => (lands o fs).map (.rule selector :: ·)
  | .atRule name params :: fs => (moves o name params).flatMap fun f => (lands o fs).map f

section

variable {o : Options} {gs fs : List Frame} {name params : String}

theorem mem_moves_client {f : List Frame → List Frame} :
    f ∈ moves o o.atRuleName params ↔ ∃ client ∈ splitClients params, aimFor o client = f := by
  rw [moves, if_pos rfl, List.mem_map]

theorem mem_lands_rule {selector : String} :
    gs ∈ lands o (.rule selector :: fs) ↔ ∃ ks ∈ lands o fs, .rule selector :: ks = gs :=
  List.mem_map

theorem mem_lands_atRule :
    gs ∈ lands o (.atRule name params :: fs) ↔
      ∃ f ∈ moves o name params, ∃ ks ∈ lands o fs, f ks = gs := by
  simp only [lands, List.mem_flatMap, List.mem_map]

end

/-! ## Where declarations go -/

mutual

theorem settings_adapt (f : String → Except AdaptError String) :
    ∀ n : Node, (n.adapt f).1.settings = n.settings.map (Setting.map (adaptFirst f))
  | .rule selector nodes location => by
    rw [adapt]
    split <;> rename_i hadapt <;> simp only [settings, map_map_settings, adaptFirst, hadapt] <;> rfl
  | .atRule name params (some nodes) location => by
    have hin := settingsAll_adaptAll f nodes
    simp only [adapt, settings, hin, map_map_settings, adaptFirst]
  | .atRule _ _ none _ => rfl
  | .declaration .. => rfl
  | .comment _ => rfl

theorem settingsAll_adaptAll (f : String → Except AdaptError String) :
    ∀ ns : List Node,
      settingsAll (adaptAll f ns).nodes = (settingsAll ns).map (Setting.map (adaptFirst f))
  | [] => rfl
  | n :: ns => by
    simp [adaptAll, settingsAll, settings_adapt f n, settingsAll_adaptAll f ns]

end

theorem settingsAll_convert (c : Client) (bodyClass : String) (r : AtRule) :
    settingsAll (c.convert bodyClass r).nodes =
      (settingsAll (r.block.getD [])).map (Setting.map (c.aim bodyClass)) := by
  cases hc : c.conversion bodyClass with
  | media query =>
    simp only [Client.convert, Client.aim, hc, settingsAll_singleton, AtRule.settings_node]
  | retargetBody replacement => simp only [Client.convert, Client.aim, hc, settingsAll_adaptAll]
  | wrap ancestor => simp only [Client.convert, Client.aim, hc, settingsAll_adaptAll]

variable {o : Options}

theorem settingsAll_copyFor {r : AtRule} (hname : r.name = o.atRuleName) (client : String) :
    settingsAll (r.copyFor o client).nodes =
      (settingsAll (r.block.getD [])).map (Setting.map (aimFor o client)) := by
  have hcomment : settingsAll (if o.comment then
      [clientComment client (Client.ofName? client).isSome] else []) = [] := by
    split <;> rfl
  rw [AtRule.copyFor, Expansion.nodes_append, settingsAll_append, hcomment, List.nil_append]
  cases hc : Client.ofName? client with
  | some c => simp only [aimFor, hc, settingsAll_convert]
  | none => simp only [aimFor, hc, settingsAll_singleton, AtRule.settings_node, hname]

theorem settingsAll_copiesFor {r : AtRule} (hname : r.name = o.atRuleName) (clients : List String) :
    settingsAll (r.copiesFor o clients).nodes =
      (clients.map (aimFor o)).flatMap fun f =>
        (settingsAll (r.block.getD [])).map (Setting.map f) := by
  induction clients with
  | nil => rfl
  | cons client clients ih =>
    rw [AtRule.copiesFor, Expansion.nodes_append, settingsAll_append, settingsAll_copyFor hname, ih,
      List.map_cons, List.flatMap_cons]

/-- What replaces an at-rule has the declarations of its block once for each of its copies. -/
theorem settingsAll_expandNamed (r : AtRule) :
    settingsAll (r.expandNamed o).nodes =
      (moves o r.name r.params).flatMap fun f =>
        (settingsAll (r.block.getD [])).map (Setting.map f) := by
  rw [AtRule.expandNamed, moves]
  split
  · rename_i hname
    rw [AtRule.expand]
    split
    · rename_i hnone
      rw [hnone]
      rfl
    · exact settingsAll_copiesFor hname _
  · rw [settingsAll_singleton, AtRule.settings_node, List.flatMap_singleton]

/-- Where expansion puts a declaration. -/
def Setting.landings (o : Options) (x : Setting) : List Setting :=
  (lands o x.frames).map fun fs => { x with frames := fs }

theorem landings_map_rule (selector : String) (x : Setting) :
    (x.map (.rule selector :: ·)).landings o =
      (x.landings o).map (Setting.map (.rule selector :: ·)) := by
  simp [Setting.landings, Setting.map, lands]

theorem landings_map_atRule (name params : String) (x : Setting) :
    (x.map (.atRule name params :: ·)).landings o =
      (moves o name params).flatMap fun f => (x.landings o).map (Setting.map f) := by
  simp [Setting.landings, Setting.map, lands, List.map_flatMap, Function.comp_def]

mutual

/-- The declarations in what replaces a node are those in the node where they land. -/
theorem mem_settings_expand {x : Setting} :
    ∀ n : Node, x ∈ settingsAll (n.expand o).nodes ↔ ∃ y ∈ n.settings, x ∈ y.landings o
  | .rule selector nodes location => by
    have hin (z : Setting) := mem_settingsAll_expandAll (x := z) nodes
    simp only [Node.expand, settingsAll_singleton, settings, List.mem_map, hin]
    constructor
    · rintro ⟨z, ⟨y, hy, hz⟩, rfl⟩
      exact ⟨_, ⟨y, hy, rfl⟩, by rw [landings_map_rule]; exact List.mem_map_of_mem hz⟩
    · rintro ⟨_, ⟨y, hy, rfl⟩, hx⟩
      rw [landings_map_rule] at hx
      obtain ⟨z, hz, rfl⟩ := List.mem_map.1 hx
      exact ⟨z, ⟨y, hy, hz⟩, rfl⟩
  | .atRule name params none location => by
    rw [Node.expand, settingsAll_expandNamed, settings]
    simp [settingsAll]
  | .atRule name params (some nodes) location => by
    have hin (z : Setting) := mem_settingsAll_expandAll (x := z) nodes
    rw [Node.expand, settingsAll_expandNamed, settings]
    simp only [List.mem_flatMap, List.mem_map, Option.getD_some, hin]
    constructor
    · rintro ⟨f, hf, z, ⟨y, hy, hz⟩, rfl⟩
      refine ⟨_, ⟨y, hy, rfl⟩, ?_⟩
      rw [landings_map_atRule]
      exact List.mem_flatMap.2 ⟨f, hf, List.mem_map_of_mem hz⟩
    · rintro ⟨_, ⟨y, hy, rfl⟩, hx⟩
      rw [landings_map_atRule] at hx
      obtain ⟨f, hf, hx⟩ := List.mem_flatMap.1 hx
      obtain ⟨z, hz, rfl⟩ := List.mem_map.1 hx
      exact ⟨f, hf, z, ⟨y, hy, hz⟩, rfl⟩
  | .declaration .. => by
    simp [Node.expand, settingsAll, settings, Setting.landings, lands, eq_comm]
  | .comment _ => by
    simp [Node.expand, settingsAll, settings]

/-- The declarations in an expansion are those of the source where they land, and no others. -/
theorem mem_settingsAll_expandAll {x : Setting} :
    ∀ ns : List Node,
      x ∈ settingsAll (expandAll o ns).nodes ↔ ∃ y ∈ settingsAll ns, x ∈ y.landings o
  | [] => by simp [expandAll, settingsAll]
  | n :: ns => by
    rw [expandAll, Expansion.nodes_append, settingsAll_append, List.mem_append,
      mem_settings_expand n, mem_settingsAll_expandAll ns, settingsAll]
    simp only [List.mem_append, or_and_right, exists_or]

end

end MailCss
