import MailCss.Selector.Attribute

/-!
# Type selectors

Reading the name of an element or a star, either with a namespace in front of it.
-/

namespace MailCss

/-- Reads the name behind a namespace and its bar. Where the text ends there is no type selector,
though the namespace has been read. -/
def readQualifiedType (n : Namespace) (items : List Item) :
    Except Failure (List Component × List Item) :=
  match dropComments items with
  | [] => .ok ([], [])
  | t :: r =>
    match t.token with
    | .delim '*' => .ok ([.qualifier n, .universal], r)
    | .ident name => .ok ([.qualifier n, .tag name], r)
    | other => refuse (.namespaceNeedsName other) (left items)

/-- Reads what follows a name or star that is a type selector, or a namespace where a bar is
next. -/
def readTypeOrNamespace (n : Namespace) (c : Component) (items : List Item) :
    Except Failure (List Component × List Item) :=
  match dropComments items with
  | t :: r => if Attribute.isBar t then readQualifiedType n r else .ok ([c], items)
  | [] => .ok ([c], items)

/-- Reads a type selector, if there is one, with its namespace. -/
def readTypeName (items : List Item) : Except Failure (List Component × List Item) :=
  match dropComments items with
  | [] => .ok ([], items)
  | t :: r =>
    match t.token with
    | .ident name => readTypeOrNamespace (.named name) (.tag name) r
    | .delim '*' => readTypeOrNamespace .any .universal r
    | .delim '|' => readQualifiedType .empty r
    | _ => .ok ([], items)

/-- Reads a type selector where one may stand. -/
def readType (flags : Flags) (items : List Item) : Except Failure (List Component × List Item) := do
  let (cs, r) ← readTypeName items
  if !cs.isEmpty && flags.afterAny then refuse .invalidState (left r) else return (cs, r)

end MailCss
