import Stencil.Bindings
import Stencil.Path
import Stencil.Scalar
/- Documents: every node that was ever created, under consecutive ids, with links
   up and down. A node that is detached stays in the document. An operation on an
   id that was never issued leaves the document's nodes as they are; whether a
   change names such an id is asked in `Stencil.Document.Change`. -/
namespace Stencil

/-- The number of a node, from zero in the order of creation. -/
abbrev NodeId := Nat

/-- What a node is and holds. -/
inductive NodeKind where
  | element (tag : String) (attributes : Bindings Scalar)
  | text (content : String)
  deriving DecidableEq, Repr

/-- A node: its kind, the node above it, and those below it in order. -/
structure Node where
  kind : NodeKind
  parent : Option NodeId
  children : List NodeId
  deriving DecidableEq, Repr

/-- A tree store with a count of the mutations made to it. -/
structure Document where
  nodes : Array Node
  root : NodeId
  mutations : Nat
  deriving DecidableEq, Repr

/-- A node with no links. -/
def NodeKind.alone (kind : NodeKind) : Node :=
  ⟨kind, none, []⟩

namespace Document

/-- A document with nothing in its body. -/
def blank : Document :=
  ⟨#[(NodeKind.element "body" []).alone], 0, 0⟩

/-- The number of nodes ever created. -/
def size (d : Document) : Nat :=
  d.nodes.size

/-- The id that the next new node gets. -/
def nextId (d : Document) : NodeId :=
  d.nodes.size

/-- Whether a node of this id was created. -/
def issued (d : Document) (id : NodeId) : Bool :=
  id < d.nodes.size

/-- The node of this id. -/
def node? (d : Document) (id : NodeId) : Option Node :=
  d.nodes[id]?

/-- The children of a node. -/
def children (d : Document) (id : NodeId) : List NodeId :=
  match d.node? id with
  | some node => node.children
  | none => []

/-- The parent of a node. -/
def parent? (d : Document) (id : NodeId) : Option NodeId :=
  (d.node? id).bind Node.parent

/-- The kind of a node. -/
def kind? (d : Document) (id : NodeId) : Option NodeKind :=
  (d.node? id).map Node.kind

/-- The tag of an element. -/
def tag? (d : Document) (id : NodeId) : Option String :=
  match d.kind? id with
  | some (.element tag _) => some tag
  | _ => none

/-- The content of a text node. -/
def text? (d : Document) (id : NodeId) : Option String :=
  match d.kind? id with
  | some (.text content) => some content
  | _ => none

/-- The attributes of an element, in the order of their names. -/
def attributes (d : Document) (id : NodeId) : Bindings Scalar :=
  match d.kind? id with
  | some (.element _ attributes) => attributes
  | _ => []

/-- The value of an attribute. -/
def attribute? (d : Document) (id : NodeId) (name : String) : Option Scalar :=
  (d.attributes id).get? name

/-- Whether a node is a text node. -/
def isText (d : Document) (id : NodeId) : Bool :=
  (d.text? id).isSome

/-- The child of a node at an index. -/
def childAt? (d : Document) (id : NodeId) (index : Nat) : Option NodeId :=
  (d.children id)[index]?

/-- The node that a path leads to, one child index for each level. -/
def resolve? (d : Document) (id : NodeId) : Path → Option NodeId
  | [] => some id
  | index :: rest => (d.childAt? id index).bind fun child => d.resolve? child rest

/-- The document with one node changed. -/
def update (d : Document) (id : NodeId) (change : Node → Node) : Document :=
  { d with nodes := d.nodes.modify id change }

/-- The document with one more node, under the next id. -/
def create (d : Document) (kind : NodeKind) : Document :=
  { d with nodes := d.nodes.push kind.alone }

/-- The document with one more mutation on its count. -/
def count (d : Document) : Document :=
  { d with mutations := d.mutations + 1 }

/-- Write a parent link. -/
def setParent (d : Document) (id : NodeId) (parent : Option NodeId) : Document :=
  d.update id fun node => { node with parent := parent }

/-- Write the links down. -/
def setChildren (d : Document) (id : NodeId) (change : List NodeId → List NodeId) : Document :=
  d.update id fun node => { node with children := change node.children }

/-- Take a node out from under its parent. -/
def detach (d : Document) (id : NodeId) : Document :=
  match d.parent? id with
  | none => d
  | some parent => (d.setParent id none).setChildren parent fun ids => ids.filter (· ≠ id)

/-- A list with one more entry before the one at `index`, or at the end. -/
def insertAt {α : Type} (index : Nat) (entry : α) (entries : List α) : List α :=
  entries.take index ++ entry :: entries.drop index

/-- Put a node under a parent, in the place among its children that `place`
chooses, out from under any other. -/
def attach (d : Document) (parent id : NodeId) (place : List NodeId → List NodeId) : Document :=
  ((d.detach id).setParent id (some parent)).setChildren parent place

/-- Take every child of a node out from under it. -/
def release (d : Document) (id : NodeId) : Document :=
  (d.children id).foldl (fun doc child => doc.setParent child none) (d.setChildren id fun _ => [])

/-- Write an attribute of an element. The null value removes it, and a text node
has none. -/
def writeAttribute (d : Document) (id : NodeId) (name : String) (value : Scalar) : Document :=
  d.update id fun node =>
    match node.kind with
    | .text _ => node
    | .element tag attributes =>
      { node with kind := .element tag <|
          if value.isNull then attributes.erase name else attributes.insert name value }

/-- Write the content of a text node. -/
def writeText (d : Document) (id : NodeId) (content : String) : Document :=
  d.update id fun node =>
    match node.kind with
    | .text _ => { node with kind := .text content }
    | .element _ _ => node

end Document

end Stencil
