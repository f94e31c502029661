import Stencil.Document.Basic
import Stencil.Skeleton
/- Changes: the seven ways in which a document is written to, as data. A change
   that creates a node carries the id which the node gets. -/
namespace Stencil

/-- One call that writes to a document. -/
inductive Change where
  | createElement (tag : String) (id : NodeId)
  | createText (content : String) (id : NodeId)
  | setAttribute (node : NodeId) (name : String) (value : Scalar)
  | appendChild (parent child : NodeId)
  | insertChild (parent : NodeId) (index : Nat) (child : NodeId)
  | clearChildren (node : NodeId)
  | setText (node : NodeId) (content : String)
  deriving DecidableEq, Repr

namespace Document

/-- Create an element. -/
def createElement (d : Document) (tag : String) : Document :=
  (d.create (.element tag [])).count

/-- Create a text node. -/
def createText (d : Document) (content : String) : Document :=
  (d.create (.text content)).count

/-- Set an attribute; the null value removes it. -/
def setAttribute (d : Document) (node : NodeId) (name : String) (value : Scalar) : Document :=
  (d.writeAttribute node name value).count

/-- Put a node under a parent as its last child. -/
def appendChild (d : Document) (parent child : NodeId) : Document :=
  (d.attach parent child fun ids => ids ++ [child]).count

/-- Put a node under a parent before the child at an index, or as the last one.
The index counts the children that are left once the node is detached. -/
def insertChild (d : Document) (parent : NodeId) (index : Nat) (child : NodeId) : Document :=
  (d.attach parent child (insertAt index child)).count

/-- Detach every child of a node. -/
def clearChildren (d : Document) (node : NodeId) : Document :=
  (d.release node).count

/-- Make a text all that a node shows: its content, for a text node, and its only
child otherwise. -/
def setText (d : Document) (node : NodeId) (content : String) : Document :=
  if d.isText node then (d.writeText node content).count
  else
    let leaf := d.nextId
    ((d.clearChildren node).createText content).appendChild node leaf

/-- The document after a change. -/
def apply (d : Document) : Change → Document
  | .createElement tag _ => d.createElement tag
  | .createText content _ => d.createText content
  | .setAttribute node name value => d.setAttribute node name value
  | .appendChild parent child => d.appendChild parent child
  | .insertChild parent index child => d.insertChild parent index child
  | .clearChildren node => d.clearChildren node
  | .setText node content => d.setText node content

/-- The document after several changes in turn. -/
def applyAll (d : Document) (changes : List Change) : Document :=
  changes.foldl apply d

/-- The nodes that a change reads or writes in a document, those included that it
reaches over a link. -/
def touched (d : Document) : Change → List NodeId
  | .createElement _ _ => []
  | .createText _ _ => []
  | .setAttribute node _ _ => [node]
  | .appendChild parent child => child :: parent :: (d.parent? child).toList
  | .insertChild parent _ child => child :: parent :: (d.parent? child).toList
  | .clearChildren node => node :: d.children node
  | .setText node _ => if d.isText node then [node] else node :: d.children node

/-- Whether a document can make a change: it issued every node that the change
reads or writes. -/
def admits (d : Document) (change : Change) : Bool :=
  (d.touched change).all d.issued

/-- The document after a change, if it can make it. -/
def applied? (d : Document) (change : Change) : Option Document :=
  if d.admits change then some (d.apply change) else none

end Document

namespace Skeleton

mutual
/-- The changes that build a copy of a skeleton whose nodes get the ids from
`next` on, in reading order. -/
def copy (next : NodeId) : Skeleton → List Change
  | text content => [.createText content next]
  | element tag attributes children =>
    .createElement tag next ::
      (attributes.map fun a => .setAttribute next a.1 a.2) ++ copies next (next + 1) children

/-- The changes that build copies of skeletons as children of one node. -/
def copies (parent next : NodeId) : List Skeleton → List Change
  | [] => []
  | s :: rest =>
    s.copy next ++ .appendChild parent next :: copies parent (next + s.nodeCount) rest
end

end Skeleton

end Stencil
