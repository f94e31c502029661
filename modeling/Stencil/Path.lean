/- Paths: child indices from a root down to a node, and the cursor that a walk
   carries to name the node it stands at. A cursor is a chain of frames, so a step
   down is one new frame, and the path is written out only when it is asked for. -/
namespace Stencil

/-- Child indices from a root down to one node. -/
abbrev Path := List Nat

/-- Where a walk stands: at the root, or at a child of the node of another
cursor. Each frame stores how deep it is. -/
inductive Cursor where
  | root
  | child (parent : Cursor) (index depth : Nat)
  deriving DecidableEq, Repr

namespace Cursor

/-- The number of steps from the root. -/
def depth : Cursor → Nat
  | root => 0
  | child _ _ depth => depth

/-- The cursor one step down, at the child of this index. -/
def down (c : Cursor) (index : Nat) : Cursor :=
  child c index (c.depth + 1)

/-- The frames from this one back to the root, each as its depth and its index. -/
def frames : Cursor → List (Nat × Nat)
  | root => []
  | child parent index depth => (depth, index) :: parent.frames

/-- Write each frame's index into the place that its depth gives it. -/
def fill (buffer : Array Nat) : List (Nat × Nat) → Array Nat
  | [] => buffer
  | (depth, index) :: rest => fill (buffer.setIfInBounds (depth - 1) index) rest

/-- The path from the root, filled in from its far end. -/
def toPath (c : Cursor) : Path :=
  (fill (Array.replicate c.depth 0) c.frames).toList

/-- The cursors along a list of steps, from the starting one to the last. -/
def along (c : Cursor) : List Nat → List Cursor
  | [] => [c]
  | index :: rest => c :: along (c.down index) rest

end Cursor

end Stencil
