import Stencil.Decimal.Layout
/- Double-precision numbers as their 64 bits: what they stand for, when two of
   them compare equal, and how they are written. -/
namespace Stencil

/-- A double-precision binary floating-point number, by its bits. -/
structure Binary64 where
  bits : UInt64
  deriving DecidableEq, Repr

namespace Binary64

/-- Whether the sign bit is set. -/
def isNegative (x : Binary64) : Bool :=
  Nat.pow 2 63 ≤ x.bits.toNat

/-- The biased exponent field. -/
def exponentField (x : Binary64) : Nat :=
  x.bits.toNat / Nat.pow 2 52 % Nat.pow 2 11

/-- The fraction field. -/
def fractionField (x : Binary64) : Nat :=
  x.bits.toNat % Nat.pow 2 52

/-- Whether the bits stand for no number. -/
def isNaN (x : Binary64) : Bool :=
  x.exponentField == 2047 && x.fractionField != 0

/-- Whether the bits stand for an infinity. -/
def isInfinite (x : Binary64) : Bool :=
  x.exponentField == 2047 && x.fractionField == 0

/-- Whether the bits stand for zero, of either sign. -/
def isZero (x : Binary64) : Bool :=
  x.exponentField == 0 && x.fractionField == 0

/-- Numeric equality: the two zeros are equal, and NaN equals nothing. -/
def equal (x y : Binary64) : Bool :=
  !x.isNaN && !y.isNaN && (x.bits == y.bits || x.isZero && y.isZero)

/-- The significand, with its hidden bit. -/
def significand (x : Binary64) : Nat :=
  if x.exponentField = 0 then x.fractionField else Nat.pow 2 52 + x.fractionField

/-- The power of two that a quarter of the significand's last bit counts. -/
def quarterPower (x : Binary64) : Int :=
  max x.exponentField 1 - 1077

/-- The numbers that round to the magnitude of a finite number. The gap below a
power of two is half the gap above it, and a tie rounds to an even significand,
so an interval holds its ends when the significand is even. -/
def interval (x : Binary64) : Decimal.Interval :=
  let m := 4 * x.significand
  let scale := Nat.pow 2 x.quarterPower.toNat
  let lower := if x.fractionField = 0 ∧ 1 < x.exponentField then 1 else 2
  { low := (m - lower) * scale
    value := m * scale
    high := (m + 2) * scale
    unit := Nat.pow 2 (-x.quarterPower).toNat
    closed := x.significand % 2 = 0 }

/-- The shortest decimal that reads back as the magnitude of a finite number;
17 digits always suffice. -/
def decimal (x : Binary64) : Decimal :=
  if x.isZero then ⟨0, 0⟩ else x.interval.shortest 17

/-- The text of a number in a layout. -/
def write (layout : Decimal.Layout) (x : Binary64) : String :=
  if x.isNaN then "NaN"
  else
    let sign := if x.isNegative then "-" else ""
    sign ++ if x.isInfinite then "inf" else layout.write x.decimal

/-- Numbers on display are written positionally, and whole ones without a point. -/
def displayLayout : Decimal.Layout := ⟨none, ""⟩

/-- Numbers under inspection keep a point, and take an exponent below `1e-4` and
from `1e16` on. -/
def inspectLayout : Decimal.Layout := ⟨some (-4, 15), ".0"⟩

/-- The text of a number on display. -/
def text (x : Binary64) : String :=
  x.write displayLayout

end Binary64

end Stencil
