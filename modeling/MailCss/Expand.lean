import MailCss.Client
import MailCss.Options
import MailCss.Stylesheet.Printer

/-!
# Expanding client at-rules

Every at-rule with the chosen name is replaced by one copy for each client that it lists, in the
order of the list. A copy is converted for its client, or kept under the same at-rule name where
the client is not known. At-rules inside an at-rule are expanded before it.
-/

namespace MailCss

open Text (Location)

/-- The client names in the parameters of an at-rule: what stands between commas, trimmed, without
the empty ones. -/
def splitClients (params : String) : List String :=
  ((Sequence.splitWhere (· == ',') params.toList).map Text.trim).filterMap fun s =>
    if s = [] then none else some (String.ofList s)

/-- The comment in front of a client's copy. -/
def clientComment (name : String) (supported : Bool) : Node :=
  .comment (if supported then name else name ++ ": unsupported")

/-- The nodes of an at-rule's copy for the client with a name. -/
def AtRule.copyFor (o : Options) (r : AtRule) (name : String) : Expansion :=
  let client := Client.ofName? name
  let comment : Expansion :=
    { nodes := if o.comment then [clientComment name client.isSome] else [] }
  let copy := { r with params := name }
  comment ++
    match client with
    | some c => c.convert o.bodyClass copy
    | none => { nodes := [copy.node], findings := [.unsupportedClient name r.location] }

/-- Without comments, a copy is what its client converts it to, or itself. -/
theorem AtRule.copyFor_of_comment_eq_false {o : Options} (ho : o.comment = false) (r : AtRule)
    (name : String) :
    r.copyFor o name =
      match Client.ofName? name with
      | some c => c.convert o.bodyClass { r with params := name }
      | none =>
        { nodes := [{ r with params := name }.node]
          findings := [.unsupportedClient name r.location] } := by
  simp only [AtRule.copyFor, ho]
  rfl

/-- The copies of an at-rule for the clients with the given names. -/
def AtRule.copiesFor (o : Options) (r : AtRule) : List String → Expansion
  | [] => {}
  | name :: names => r.copyFor o name ++ r.copiesFor o names

/-- The nodes that replace a client at-rule whose block is expanded. -/
def AtRule.expand (o : Options) (r : AtRule) : Expansion :=
  match splitClients r.params with
  | [] => { findings := [.emptyClientList r.name r.location] }
  | names => r.copiesFor o names

/-- The nodes that replace an at-rule whose block is expanded. -/
def AtRule.expandNamed (o : Options) (r : AtRule) : Expansion :=
  if r.name = o.atRuleName then r.expand o else { nodes := [r.node] }

mutual

/-- The nodes that replace a node. -/
def Node.expand (o : Options) : Node → Expansion
  | .rule selector nodes location =>
    let e := Node.expandAll o nodes
    { nodes := [.rule selector e.nodes location], findings := e.findings }
  | .atRule name params none location => AtRule.expandNamed o ⟨name, params, none, location⟩
  | .atRule name params (some nodes) location =>
    let e := Node.expandAll o nodes
    let own := AtRule.expandNamed o ⟨name, params, some e.nodes, location⟩
    { nodes := own.nodes, findings := e.findings ++ own.findings }
  | .declaration property value => { nodes := [.declaration property value] }
  | .comment text => { nodes := [.comment text] }

/-- The nodes that replace siblings. -/
def Node.expandAll (o : Options) : List Node → Expansion
  | [] => {}
  | n :: ns => n.expand o ++ Node.expandAll o ns

end

theorem Node.expandAll_singleton (o : Options) (n : Node) : Node.expandAll o [n] = n.expand o := by
  show Expansion.mk _ _ = _
  simp [Node.expandAll]

theorem Node.expandAll_append (o : Options) (ns ks : List Node) :
    Node.expandAll o (ns ++ ks) = Node.expandAll o ns ++ Node.expandAll o ks := by
  induction ns with
  | nil => rfl
  | cons n ns ih =>
    rw [List.cons_append, Node.expandAll, ih, Node.expandAll, Expansion.append_assoc]

/-- A style sheet with its client at-rules expanded, and what was found on the way. -/
def Stylesheet.expand (o : Options) (s : Stylesheet) : Expansion := Node.expandAll o s.nodes

/-- What a transformation gives. -/
structure Transformed where
  code : String
  diagnostics : List Diagnostic
  log : List Event
  deriving Repr, Inhabited

/-- Reads a style sheet, expands its client at-rules and writes the result. -/
def transform (o : Options) (css : String) : Transformed :=
  let r := Reading.ofText css.toList
  let e := Node.expandAll o r.nodes
  { code := Stylesheet.print ⟨e.nodes⟩
    diagnostics := e.diagnostics
    log := r.skipped.map Skipped.event ++ e.findings.filterMap Finding.event? }

end MailCss
