import Stencil.Document.Basic
/- The tree below a node of a document. Links may run in circles; a node that is
   its own ancestor has no such tree. -/
namespace Stencil

/-- What a document shows below a node, with the ids of the nodes. What is linked
below a text node is not shown. -/
inductive Tree where
  | text (id : NodeId) (content : String)
  | element (id : NodeId) (tag : String) (attributes : Bindings Scalar) (children : List Tree)
  deriving Repr

namespace Tree

/-- The id of the topmost node. -/
def id : Tree → NodeId
  | text id _ => id
  | element id _ _ _ => id

mutual
/-- The ids of the nodes in reading order. -/
def ids : Tree → List NodeId
  | text id _ => [id]
  | element id _ _ children => id :: allIds children

/-- The ids of the nodes of several trees in turn. -/
def allIds : List Tree → List NodeId
  | [] => []
  | t :: rest => t.ids ++ allIds rest
end

mutual
/-- The texts of a tree, put together in reading order. -/
def textContent : Tree → String
  | text _ content => content
  | element _ _ _ children => allTextContent children

/-- The texts of several trees, put together. -/
def allTextContent : List Tree → String
  | [] => ""
  | t :: rest => t.textContent ++ allTextContent rest
end

end Tree

namespace Document

/-- The tree below a node, if it has at most `depth` levels. -/
def treeWithin (d : Document) : Nat → NodeId → Option Tree
  | 0, _ => none
  | depth + 1, id =>
    match d.kind? id with
    | none => none
    | some (.text content) => some (.text id content)
    | some (.element tag attributes) =>
      ((d.children id).mapM (d.treeWithin depth)).map (.element id tag attributes)

/-- The node above a node, the one above that, and so on, `steps` of them. -/
def ancestorsWithin (d : Document) : Nat → NodeId → List NodeId
  | 0, _ => []
  | steps + 1, id =>
    match d.parent? id with
    | none => []
    | some parent => parent :: d.ancestorsWithin steps parent

/-- The ancestors of a node, each at least once. -/
def ancestors (d : Document) (id : NodeId) : List NodeId :=
  d.ancestorsWithin d.size id

/-- Whether a node is its own ancestor. -/
def isOwnAncestor (d : Document) (id : NodeId) : Bool :=
  (d.ancestors id).contains id

/-- The tree below a node, unless the node is its own ancestor. As many levels as
the document has nodes are enough. -/
def tree? (d : Document) (id : NodeId) : Option Tree :=
  if d.isOwnAncestor id then none else d.treeWithin d.size id

/-- The trees below the children of a node, unless it is its own ancestor. -/
def childTrees? (d : Document) (id : NodeId) : Option (List Tree) :=
  if d.isOwnAncestor id then none else (d.children id).mapM (d.treeWithin d.size)

/-- The texts below a node, put together. -/
def textContent? (d : Document) (id : NodeId) : Option String :=
  (d.tree? id).map Tree.textContent

end Document

end Stencil
