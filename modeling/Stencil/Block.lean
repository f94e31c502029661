import Stencil.Edit
import Stencil.Skeleton
/- Blocks: compiled templates. -/
namespace Stencil

/-- A compiled template: its declared slots, what its instances share, and the
edits that fill the rest, in the order in which a mount makes them. The serial
number tells one compilation from another, also of the same template. -/
structure Block where
  serial : Nat
  slots : List String
  skeleton : Skeleton
  edits : List Edit
  deriving Repr

namespace Edit

/-- How many of the edits a hole fills. -/
def usesOf (edits : List Edit) (hole : String) : Nat :=
  edits.countP fun e => e.hole == hole

end Edit

namespace Block

/-- How many edits a slot fills. -/
def usesOf (b : Block) (slot : String) : Nat :=
  Edit.usesOf b.edits slot

/-- Whether two blocks come from one compilation. -/
def sameAs (a b : Block) : Bool :=
  a.serial == b.serial

end Block

end Stencil
