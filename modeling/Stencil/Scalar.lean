import Stencil.Binary64
/- Scalars: the concrete values of text leaves and attributes. -/
namespace Stencil

/-- A concrete value. A callback is known by its number only. -/
inductive Scalar where
  | null
  | bool (value : Bool)
  | int (value : Int)
  | float (value : Binary64)
  | str (value : String)
  | callback (number : Nat)
  deriving DecidableEq, Repr

namespace Scalar

/-- Whether two scalars compare equal: of one kind and of equal value, where
floats compare as numbers and callbacks by identity. -/
def equal : Scalar → Scalar → Bool
  | null, null => true
  | bool a, bool b => a == b
  | int a, int b => a == b
  | float a, float b => a.equal b
  | str a, str b => a == b
  | callback a, callback b => a == b
  | _, _ => false

/-- The text of a boolean. -/
def boolText (b : Bool) : String :=
  if b then "true" else "false"

/-- The text of an integer: its digits, after a minus sign when it is negative. -/
def intText (n : Int) : String :=
  let ds := String.ofList (Decimal.digits n.natAbs)
  if n < 0 then "-" ++ ds else ds

/-- The text that a scalar shows in a text node or an attribute; null and
callbacks show nothing. -/
def text : Scalar → String
  | null => ""
  | bool b => boolText b
  | int n => intText n
  | float x => x.text
  | str s => s
  | callback _ => ""

/-- Whether the scalar is null. -/
def isNull : Scalar → Bool
  | null => true
  | _ => false

/-- The number of a callback. -/
def callback? : Scalar → Option Nat
  | callback n => some n
  | _ => none

end Scalar

end Stencil
