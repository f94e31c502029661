import Stencil.Path
import Stencil.Scalar
/- Skeletons: what all instances of a template share. A skeleton has no holes. -/
namespace Stencil

/-- A tree of fixed tags, attributes and texts. An attribute may be listed more
than once; they are written in the order of the list. -/
inductive Skeleton where
  | text (content : String)
  | element (tag : String) (attributes : List (String × Scalar)) (children : List Skeleton)
  deriving Repr

namespace Skeleton

mutual
/-- The number of nodes. -/
def nodeCount : Skeleton → Nat
  | text _ => 1
  | element _ _ children => 1 + nodeCounts children

/-- The number of nodes of a list of skeletons. -/
def nodeCounts : List Skeleton → Nat
  | [] => 0
  | s :: rest => s.nodeCount + nodeCounts rest
end

/-- The children of an element; a text has none. -/
def children : Skeleton → List Skeleton
  | text _ => []
  | element _ _ children => children

/-- The node at the end of a path. -/
def at? : Skeleton → Path → Option Skeleton
  | s, [] => some s
  | s, index :: rest => s.children[index]?.bind fun child => at? child rest

end Skeleton

end Stencil
