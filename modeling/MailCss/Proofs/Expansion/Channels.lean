import Mathlib.Data.List.Forall2
import MailCss.Expand

/-!
# The log and the diagnostics

A run writes to two channels: warnings go to the log, and diagnostics to the list that is returned.
A selector that cannot be adapted is logged and then reported, on the spot; what is wrong with a
client list is reported only. `transformLogged` is a run that writes each channel where something
comes up, deep in the nodes and once more for every copy that is made of them. What it has written
is at any time determined by what was found so far (`Channels.writeAll`), and every finding keeps
the two channels in step (`inStep_write`).

Main statement: `transform_log`.
-/

namespace MailCss

open Text (Location)

/-! ## Writing both channels -/

/-- What has been written: the events of the log, and the diagnostics. -/
structure Channels where
  log : List Event := []
  diagnostics : List Diagnostic := []
  deriving DecidableEq, Repr

namespace Channels

/-- One more event of the log. -/
def warn (c : Channels) (e : Event) : Channels := { c with log := c.log ++ [e] }

/-- One more diagnostic. -/
def report (c : Channels) (d : Diagnostic) : Channels :=
  { c with diagnostics := c.diagnostics ++ [d] }

/-- A selector is left as it is, which is logged and then reported. -/
def fail (c : Channels) (e : AdaptError) (location : Location) : Channels :=
  (c.warn ⟨"leaving selector unchanged: " ++ e.message, location⟩).report
    (.ofAdaptError e location)

end Channels

mutual

/-- Adapts the selectors of the style rules in a node. -/
def Node.adaptLogged (f : String → Except AdaptError String) (c : Channels) :
    Node → Node × Channels
  | .rule selector nodes location =>
    match f selector with
    | .ok s => (.rule s nodes location, c)
    | .error e => (.rule selector nodes location, c.fail e location)
  | .atRule name params (some nodes) location =>
    let (ns, c') := Node.adaptAllLogged f c nodes
    (.atRule name params (some ns) location, c')
  | .atRule name params none location => (.atRule name params none location, c)
  | .declaration property value => (.declaration property value, c)
  | .comment text => (.comment text, c)

/-- Adapts the selectors of the style rules in nodes, one node after the other. -/
def Node.adaptAllLogged (f : String → Except AdaptError String) (c : Channels) :
    List Node → List Node × Channels
  | [] => ([], c)
  | n :: ns =>
    let (n', c₁) := n.adaptLogged f c
    let (ns', c₂) := Node.adaptAllLogged f c₁ ns
    (n' :: ns', c₂)

end

/-- Converts a client's copy of an at-rule. -/
def Client.convertLogged (k : Client) (bodyClass : String) (r : AtRule) (c : Channels) :
    List Node × Channels :=
  match k.conversion bodyClass with
  | .media query => ([{ r with name := "media", params := query }.node], c)
  | .retargetBody replacement =>
    Node.adaptAllLogged (Adapt.retargetBody bodyClass replacement) c (r.block.getD [])
  | .wrap ancestor => Node.adaptAllLogged (Adapt.addWrapper ancestor) c (r.block.getD [])

namespace AtRule

variable (o : Options) (r : AtRule)

/-- Makes the copy of an at-rule for the client with a name. -/
def copyLogged (name : String) (c : Channels) : List Node × Channels :=
  let client := Client.ofName? name
  let comment := if o.comment then [clientComment name client.isSome] else []
  match client with
  | some k =>
    let (ns, c') := k.convertLogged o.bodyClass { r with params := name } c
    (comment ++ ns, c')
  | none =>
    (comment ++ [{ r with params := name }.node],
      c.report (.unsupportedClient name r.location))

/-- Makes the copies of an at-rule for the clients with the given names, one after the other. -/
def copiesLogged : List String → Channels → List Node × Channels
  | [], c => ([], c)
  | name :: names, c =>
    let (ns, c₁) := r.copyLogged o name c
    let (ks, c₂) := copiesLogged names c₁
    (ns ++ ks, c₂)

/-- Replaces an at-rule whose block is expanded. -/
def expandLogged (c : Channels) : List Node × Channels :=
  if r.name = o.atRuleName then
    match splitClients r.params with
    | [] => ([], c.report (.emptyClientList r.name r.location))
    | names => r.copiesLogged o names c
  else ([r.node], c)

end AtRule

mutual

/-- Replaces a node, after what is in it. -/
def Node.expandLogged (o : Options) (c : Channels) : Node → List Node × Channels
  | .rule selector nodes location =>
    let (ns, c') := Node.expandAllLogged o c nodes
    ([.rule selector ns location], c')
  | .atRule name params none location => AtRule.expandLogged o ⟨name, params, none, location⟩ c
  | .atRule name params (some nodes) location =>
    let (ns, c') := Node.expandAllLogged o c nodes
    AtRule.expandLogged o ⟨name, params, some ns, location⟩ c'
  | .declaration property value => ([.declaration property value], c)
  | .comment text => ([.comment text], c)

/-- Replaces siblings, one after the other. -/
def Node.expandAllLogged (o : Options) (c : Channels) : List Node → List Node × Channels
  | [] => ([], c)
  | n :: ns =>
    let (ks, c₁) := n.expandLogged o c
    let (ls, c₂) := Node.expandAllLogged o c₁ ns
    (ks ++ ls, c₂)

end

/-- A run that writes both channels as it goes: reading logs what it skips, and expansion goes on
from there. -/
def transformLogged (o : Options) (css : String) : String × Channels :=
  let r := Reading.ofText css.toList
  let (ns, c) := Node.expandAllLogged o { log := r.skipped.map Skipped.event } r.nodes
  (Stylesheet.print ⟨ns⟩, c)

/-! ## What has been written -/

namespace Channels

/-- Writes what there is to write about a finding. -/
def write (c : Channels) : Finding → Channels
  | .notAdapted e location => c.fail e location
  | .unsupportedClient client location => c.report (.unsupportedClient client location)
  | .emptyClientList name location => c.report (.emptyClientList name location)

/-- Writes about findings in turn. -/
def writeAll (c : Channels) (fs : List Finding) : Channels := fs.foldl write c

@[simp] theorem writeAll_nil (c : Channels) : c.writeAll [] = c := rfl

@[simp] theorem writeAll_singleton (c : Channels) (f : Finding) : c.writeAll [f] = c.write f := rfl

@[simp] theorem writeAll_append (c : Channels) (fs gs : List Finding) :
    c.writeAll (fs ++ gs) = (c.writeAll fs).writeAll gs :=
  List.foldl_append

/-- Each channel has its own part of what was found. -/
theorem writeAll_eq (c : Channels) (fs : List Finding) :
    c.writeAll fs = ⟨c.log ++ fs.filterMap Finding.event?,
      c.diagnostics ++ fs.map Finding.diagnostic⟩ := by
  induction fs generalizing c with
  | nil => simp
  | cons f fs ih =>
    have hstep : c.writeAll (f :: fs) = (c.write f).writeAll fs := rfl
    rw [hstep, ih]
    cases f <;>
      simp [write, fail, warn, report, Finding.event?, Finding.diagnostic, List.filterMap_cons]

end Channels

/-- An expansion as what a run that writes leaves: its nodes, and its findings written. -/
def Expansion.written (e : Expansion) (c : Channels) : List Node × Channels :=
  (e.nodes, c.writeAll e.findings)

open Node

section Adapt

variable (f : String → Except AdaptError String)

mutual

theorem adaptLogged_eq : ∀ (n : Node) (c : Channels),
    n.adaptLogged f c = ((n.adapt f).1, c.writeAll (n.adapt f).2)
  | .rule selector nodes location, c => by
    rw [adaptLogged, adapt]
    cases f selector <;> rfl
  | .atRule name params (some nodes) location, c => by
    rw [adaptLogged, adaptAllLogged_eq nodes c]
    rfl
  | .atRule _ _ none _, _ => rfl
  | .declaration .., _ => rfl
  | .comment _, _ => rfl

theorem adaptAllLogged_eq : ∀ (ns : List Node) (c : Channels),
    adaptAllLogged f c ns = (adaptAll f ns).written c
  | [], _ => rfl
  | n :: ns, c => by
    rw [adaptAllLogged, adaptLogged_eq n c]
    simp only
    rw [adaptAllLogged_eq ns]
    simp [adaptAll, Expansion.written]

end

end Adapt

theorem convertLogged_eq (k : Client) (bodyClass : String) (r : AtRule) (c : Channels) :
    k.convertLogged bodyClass r c = (k.convert bodyClass r).written c := by
  simp only [Client.convertLogged, Client.convert]
  cases k.conversion bodyClass with
  | media => rfl
  | retargetBody => exact adaptAllLogged_eq _ _ c
  | wrap => exact adaptAllLogged_eq _ _ c

variable {o : Options}

theorem copyLogged_eq (r : AtRule) (name : String) (c : Channels) :
    r.copyLogged o name c = (r.copyFor o name).written c := by
  simp only [AtRule.copyLogged, AtRule.copyFor, Expansion.written]
  cases Client.ofName? name with
  | none => rfl
  | some k => simp [convertLogged_eq, Expansion.written]

theorem copiesLogged_eq (r : AtRule) (names : List String) (c : Channels) :
    r.copiesLogged o names c = (r.copiesFor o names).written c := by
  induction names generalizing c with
  | nil => rfl
  | cons name names ih =>
    rw [AtRule.copiesLogged, copyLogged_eq, Expansion.written]
    simp only
    rw [ih]
    simp [Expansion.written, AtRule.copiesFor]

theorem AtRule.expandLogged_eq (r : AtRule) (c : Channels) :
    r.expandLogged o c = (r.expandNamed o).written c := by
  rw [AtRule.expandLogged, AtRule.expandNamed]
  split
  · rw [AtRule.expand]
    cases splitClients r.params with
    | nil => rfl
    | cons name names => exact copiesLogged_eq r _ c
  · rfl

mutual

/-- A run that writes replaces a node as expansion does, and writes what expansion finds. -/
theorem expandLogged_eq : ∀ (n : Node) (c : Channels),
    n.expandLogged o c = (n.expand o).written c
  | .rule selector nodes location, c => by
    rw [expandLogged, expandAllLogged_eq nodes c]
    rfl
  | .atRule name params none location, c => AtRule.expandLogged_eq _ c
  | .atRule name params (some nodes) location, c => by
    rw [expandLogged, expandAllLogged_eq nodes c, Expansion.written]
    simp only
    rw [AtRule.expandLogged_eq]
    simp [Expansion.written, expand]
  | .declaration .., _ => rfl
  | .comment _, _ => rfl

theorem expandAllLogged_eq : ∀ (ns : List Node) (c : Channels),
    expandAllLogged o c ns = (expandAll o ns).written c
  | [], _ => rfl
  | n :: ns, c => by
    rw [expandAllLogged, expandLogged_eq n c, Expansion.written]
    simp only
    rw [expandAllLogged_eq ns]
    simp [Expansion.written, expandAll]

end

/-- Writing both channels as it goes, a run gives what a transformation gives. -/
theorem transformLogged_eq (o : Options) (css : String) :
    transformLogged o css =
      ((transform o css).code, ⟨(transform o css).log, (transform o css).diagnostics⟩) := by
  rw [transformLogged, expandAllLogged_eq]
  simp only [Expansion.written, Channels.writeAll_eq, List.nil_append]
  rfl

/-! ## The channels in step -/

/-- Whether a diagnostic is about a selector: a warning that points to a text. -/
def Diagnostic.isAboutSelector (d : Diagnostic) : Bool :=
  d.severity = .warning && d.labels.any (·.text.isSome)

/-- An event of the log for a diagnostic: a selector was left as it is, which the event tells in the
words of the diagnostic and at the only place that the diagnostic points to. -/
structure Event.Records (e : Event) (d : Diagnostic) : Prop where
  failure : ∃ error, d = .ofAdaptError error e.location
  label : ∃ text, d.labels = [⟨some text, e.location⟩]
  message : e.message = "leaving selector unchanged: " ++ d.text

/-- Behind the events `start`, the log has one event for each diagnostic about a selector. -/
def Channels.InStep (start : List Event) (c : Channels) : Prop :=
  ∃ events, c.log = start ++ events ∧
    List.Forall₂ Event.Records events (c.diagnostics.filter Diagnostic.isAboutSelector)

namespace Channels

variable {start : List Event} {c : Channels}

/-- A failure goes to both channels. -/
theorem InStep.fail (h : c.InStep start) (e : AdaptError) (location : Location) :
    (c.fail e location).InStep start := by
  obtain ⟨events, hlog, hrecords⟩ := h
  let event : Event := ⟨"leaving selector unchanged: " ++ e.message, location⟩
  have hevent : event.Records (.ofAdaptError e location) := ⟨⟨e, rfl⟩, ⟨e.selector, rfl⟩, rfl⟩
  refine ⟨events ++ [event], ?_, ?_⟩
  · simp [Channels.fail, warn, report, hlog, event]
  · have habout : (Diagnostic.ofAdaptError e location).isAboutSelector = true := rfl
    simp only [Channels.fail, warn, report, List.filter_append]
    rw [List.filter_cons_of_pos habout, List.filter_nil]
    exact List.rel_append hrecords (.cons hevent .nil)

/-- What is not about a selector goes to the diagnostics only. -/
theorem InStep.report (h : c.InStep start) {d : Diagnostic} (hd : d.isAboutSelector = false) :
    (c.report d).InStep start := by
  obtain ⟨events, hlog, hrecords⟩ := h
  refine ⟨events, hlog, ?_⟩
  have hrest : [d].filter Diagnostic.isAboutSelector = [] :=
    List.filter_cons_of_neg (by rw [hd]; exact Bool.false_ne_true)
  rwa [Channels.report, List.filter_append, hrest, List.append_nil]

/-- Every finding keeps the channels in step. -/
theorem inStep_write (h : c.InStep start) (f : Finding) : (c.write f).InStep start := by
  cases f with
  | notAdapted e location => exact h.fail e location
  | unsupportedClient => exact h.report rfl
  | emptyClientList => exact h.report rfl

theorem inStep_writeAll (h : c.InStep start) (fs : List Finding) :
    (c.writeAll fs).InStep start := by
  induction fs generalizing c with
  | nil => exact h
  | cons f fs ih => exact ih (inStep_write h f)

end Channels

/-- The log of a transformation has what reading the style sheet logs and then one event for each
diagnostic about a selector, in their order, in its words and at the place it points to. The log
and the diagnostics are those that a run writes which logs and reports each of them on the spot. -/
theorem transform_log (o : Options) (css : String) :
    let t := transform o css
    (∃ events, t.log = (Reading.ofText css.toList).skipped.map Skipped.event ++ events ∧
      List.Forall₂ Event.Records events (t.diagnostics.filter Diagnostic.isAboutSelector)) ∧
    transformLogged o css = (t.code, ⟨t.log, t.diagnostics⟩) := by
  intro t
  let read : Channels := { log := (Reading.ofText css.toList).skipped.map Skipped.event }
  have hread : read.InStep read.log := ⟨[], by simp, .nil⟩
  have hrun := transformLogged_eq o css
  refine ⟨?_, hrun⟩
  -- Reading leaves the channels in step, and so does all that expansion writes behind it.
  have hstep := Channels.inStep_writeAll hread
    (Node.expandAll o (Reading.ofText css.toList).nodes).findings
  have hwritten : read.writeAll (Node.expandAll o (Reading.ofText css.toList).nodes).findings =
      ⟨t.log, t.diagnostics⟩ := by
    have hchannels := congrArg Prod.snd hrun
    rwa [transformLogged, expandAllLogged_eq] at hchannels
  rw [hwritten] at hstep
  exact hstep

/-- What reading skips is logged first, and then a selector that two clients cannot adapt, once for
each; the name that is no client is reported only. -/
example :
    let t := transform {} "a b;@client gmail, x, outlook-com\x7b.a >\x7b\x7d\x7d"
    t.log.map Event.location = [⟨1, 0⟩, ⟨1, 34⟩, ⟨1, 34⟩] ∧ t.diagnostics.length = 3 := by
  decide +kernel

end MailCss
