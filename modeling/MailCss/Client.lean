import MailCss.Diagnostic

/-!
# Email clients

The email clients that style sheets can be aimed at, and what each of them needs: a media query
that only it applies, or selectors that only match in its markup.

Converting a client's copy of an at-rule returns the nodes that replace it. A media client's copy
stays an at-rule; the others are replaced by the children of their block, with the selectors of
the style rules in it adapted, in blocks of at-rules too but not inside style rules.
-/

namespace MailCss

open Text (Location)

/-- An email client. -/
inductive Client where
  | yahoo
  | webkit
  | aol
  | gmail
  | outlookCom
  | thunderbird
  deriving DecidableEq, Repr, Inhabited

/-- What a client's copy of an at-rule becomes. -/
inductive Conversion where
  /-- A media at-rule with this query. -/
  | media (query : String)
  /-- Its rules, with the body element replaced by this selector. -/
  | retargetBody (replacement : String)
  /-- Its rules, below this ancestor. -/
  | wrap (ancestor : String)
  deriving DecidableEq, Repr, Inhabited

namespace Client

/-- All clients. -/
def all : List Client := [.yahoo, .webkit, .aol, .gmail, .outlookCom, .thunderbird]

/-- The name of a client in a style sheet. -/
def name : Client → String
  | .yahoo => "yahoo"
  | .webkit => "webkit"
  | .aol => "aol"
  | .gmail => "gmail"
  | .outlookCom => "outlook-com"
  | .thunderbird => "thunderbird"

/-- The client with a name, whose case counts. -/
def ofName? (s : String) : Option Client := all.find? fun c => c.name == s

/-- What a client needs; `bodyClass` is the class that stands for the body element. -/
def conversion (bodyClass : String) : Client → Conversion
  | .yahoo => .media "screen yahoo"
  | .webkit => .media "screen and (-webkit-min-device-pixel-ratio: 0)"
  | .aol => .retargetBody ("body[class~=\"aolmail_" ++ bodyClass ++ "\"]")
  | .gmail => .retargetBody ("u + ." ++ bodyClass)
  | .outlookCom => .wrap "[owa]"
  | .thunderbird => .wrap ".moz-text-html"

end Client

/-- Nodes that replace others, and what was found on the way. -/
structure Expansion where
  nodes : List Node := []
  findings : List Finding := []
  deriving Repr, Inhabited

namespace Expansion

/-- One expansion and then another. -/
def append (a b : Expansion) : Expansion := ⟨a.nodes ++ b.nodes, a.findings ++ b.findings⟩

instance : Append Expansion := ⟨append⟩

@[simp] theorem nodes_append (a b : Expansion) : (a ++ b).nodes = a.nodes ++ b.nodes := rfl

@[simp] theorem findings_append (a b : Expansion) :
    (a ++ b).findings = a.findings ++ b.findings := rfl

theorem append_assoc (a b c : Expansion) : a ++ b ++ c = a ++ (b ++ c) := by
  show Expansion.mk _ _ = Expansion.mk _ _
  simp

/-- The diagnostics of what was found. -/
def diagnostics (e : Expansion) : List Diagnostic := e.findings.map Finding.diagnostic

end Expansion

mutual

/-- A node with the selectors of its style rules adapted, and the failures to do so. -/
def Node.adapt (f : String → Except AdaptError String) : Node → Node × List Finding
  | .rule selector nodes location =>
    match f selector with
    | .ok s => (.rule s nodes location, [])
    | .error e => (.rule selector nodes location, [.notAdapted e location])
  | .atRule name params (some nodes) location =>
    let e := Node.adaptAll f nodes
    (.atRule name params (some e.nodes) location, e.findings)
  | .atRule name params none location => (.atRule name params none location, [])
  | .declaration property value => (.declaration property value, [])
  | .comment text => (.comment text, [])

/-- Nodes with the selectors of their style rules adapted. -/
def Node.adaptAll (f : String → Except AdaptError String) : List Node → Expansion
  | [] => {}
  | n :: ns =>
    let (n', findings) := n.adapt f
    let rest := Node.adaptAll f ns
    ⟨n' :: rest.nodes, findings ++ rest.findings⟩

end

theorem Node.adaptAll_cons (f : String → Except AdaptError String) (n : Node) (ns : List Node) :
    Node.adaptAll f (n :: ns) = Node.adaptAll f [n] ++ Node.adaptAll f ns := by
  show Expansion.mk _ _ = Expansion.mk _ _
  simp [Node.adaptAll]

theorem Node.adaptAll_append (f : String → Except AdaptError String) (ns ks : List Node) :
    Node.adaptAll f (ns ++ ks) = Node.adaptAll f ns ++ Node.adaptAll f ks := by
  induction ns with
  | nil => rfl
  | cons n ns ih =>
    rw [List.cons_append, Node.adaptAll_cons, ih, Node.adaptAll_cons f n ns, Expansion.append_assoc]

/-- An at-rule. -/
structure AtRule where
  name : String
  params : String
  block : Option (List Node)
  location : Location
  deriving Repr, Inhabited

/-- An at-rule as a node. -/
def AtRule.node (r : AtRule) : Node := .atRule r.name r.params r.block r.location

/-- The nodes that replace a client's copy of an at-rule. -/
def Client.convert (c : Client) (bodyClass : String) (r : AtRule) : Expansion :=
  let children := r.block.getD []
  match c.conversion bodyClass with
  | .media query => { nodes := [{ r with name := "media", params := query }.node] }
  | .retargetBody replacement =>
    Node.adaptAll (Adapt.retargetBody bodyClass replacement) children
  | .wrap ancestor => Node.adaptAll (Adapt.addWrapper ancestor) children

end MailCss
