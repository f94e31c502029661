import Stencil.Document.Tree
/- Markup: a tree as one line of tags and escaped text. Attributes come in the
   order of their names, and one that holds a callback as its bare name. -/
namespace Stencil.Markup

/-- One character as text, or as part of a quoted value, in which a quote is
escaped too. -/
def escapeChar (quoted : Bool) (c : Char) : List Char :=
  if c = '&' then ['&', 'a', 'm', 'p', ';']
  else if c = '<' then ['&', 'l', 't', ';']
  else if c = '>' then ['&', 'g', 't', ';']
  else if c = '"' ∧ quoted then ['&', 'q', 'u', 'o', 't', ';']
  else [c]

/-- A text without characters that markup gives a meaning to. -/
def escape (quoted : Bool) (s : String) : String :=
  String.ofList (s.toList.flatMap (escapeChar quoted))

/-- An attribute, after the blank that sets it off. -/
def binding (name : String) (value : Scalar) : String :=
  match value with
  | .callback _ => " " ++ name
  | _ => " " ++ name ++ "=\"" ++ escape true value.text ++ "\""

/-- Attributes in turn. -/
def bindings : Bindings Scalar → String
  | [] => ""
  | (name, value) :: rest => binding name value ++ bindings rest

mutual
/-- A tree. -/
def tree : Tree → String
  | .text _ content => escape false content
  | .element _ tag attributes children =>
    "<" ++ tag ++ bindings attributes ++ ">" ++ trees children ++ "</" ++ tag ++ ">"

/-- Trees in turn. -/
def trees : List Tree → String
  | [] => ""
  | t :: rest => tree t ++ trees rest
end

end Stencil.Markup

namespace Stencil.Document

/-- The markup of a node, unless the node is its own ancestor. -/
def markup? (d : Document) (id : NodeId) : Option String :=
  (d.tree? id).map Markup.tree

/-- The markup of what is below a node, unless the node is its own ancestor. -/
def innerMarkup? (d : Document) (id : NodeId) : Option String :=
  (d.childTrees? id).map Markup.trees

end Stencil.Document
