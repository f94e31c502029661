import Stencil.Path
/- Edits: the dynamic slots of a template. An edit says where its slot is, what
   kind of slot it is, and which hole fills it. -/
namespace Stencil

/-- One dynamic slot: an attribute of the node at a path, or the child at an index
below it. -/
inductive Edit where
  | attr (path : Path) (name : String) (hole : String)
  | child (path : Path) (index : Nat) (hole : String)
  deriving DecidableEq, Repr

namespace Edit

/-- The path of the element that has the slot. -/
def path : Edit → Path
  | attr path _ _ => path
  | child path _ _ => path

/-- The hole that fills the slot. -/
def hole : Edit → String
  | attr _ _ hole => hole
  | child _ _ hole => hole

/-- For each edit after the first: whether its slot is at the same element as the
slot of the edit before it. -/
def sameElement (edits : List Edit) : List Bool :=
  List.zipWith (fun earlier later => earlier.path == later.path) edits (edits.drop 1)

end Edit

end Stencil
