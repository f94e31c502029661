import Stencil.Bindings
import Stencil.Block
import Stencil.Document.Basic
/- Instances: a block together with the values of its slots. A slot holds a scalar
   or a whole instance of some block, so instances nest. -/
namespace Stencil

mutual
/-- The value of one slot. -/
inductive Value where
  | scalar (value : Scalar)
  | block (nested : Instance)

/-- A block with values for its slots, in the order of their names. A mounted
instance has the node that each of its edits is made at, in the order of the
edits, and the root of its copy of the skeleton. -/
structure Instance where
  block : Block
  props : List (String × Value)
  resolved : List NodeId
  root : Option NodeId
end

namespace Value

/-- Whether the value is a nested instance. -/
def isBlock : Value → Bool
  | scalar _ => false
  | block _ => true

/-- The nested instance that a value is. -/
def nested? : Value → Option Instance
  | scalar _ => none
  | block nested => some nested

end Value

namespace Instance

/-- A new instance, not yet mounted. -/
def new (block : Block) (props : Bindings Value) : Instance :=
  ⟨block, props, [], none⟩

/-- The value of a slot. -/
def prop? (i : Instance) (slot : String) : Option Value :=
  Bindings.get? i.props slot

/-- Whether the instance has been mounted. -/
def isMounted (i : Instance) : Bool :=
  i.root.isSome

/-- The instance nested at the end of a list of slots. -/
def descend? (i : Instance) : List String → Option Instance
  | [] => some i
  | slot :: rest => ((i.prop? slot).bind Value.nested?).bind fun nested => nested.descend? rest

/-- An instance of `block` that holds, in its one slot, an instance of it that holds
the next one in, `count` of them, the innermost holding `value`. -/
def chain (block : Block) (slot : String) : Nat → Value → Value
  | 0, value => value
  | count + 1, value => chain block slot count (.block (new block [(slot, value)]))

end Instance

end Stencil
