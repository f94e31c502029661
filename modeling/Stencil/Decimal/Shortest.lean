/- Shortest decimals. A binary fraction stands for an interval of numbers: those
   that round to it. `Interval.shortest` picks the decimal with the fewest digits
   inside the interval, and among those the one nearest to the fraction, in exact
   natural-number arithmetic. -/
namespace Stencil

/-- A non-negative decimal: `coefficient` times ten to the `exponent`. -/
structure Decimal where
  coefficient : Nat
  exponent : Int
  deriving DecidableEq, Repr

namespace Decimal

/-- A positive number and the interval around it that rounds to it, all three
over the same `unit`. A closed interval holds its two ends. -/
structure Interval where
  low : Nat
  value : Nat
  high : Nat
  unit : Nat
  closed : Bool
  deriving DecidableEq, Repr

/-- How many decimal digits a natural number has; zero has none. -/
def digitCount (n : Nat) : Nat :=
  if n = 0 then 0 else (Nat.toDigits 10 n).length

/-- The same decimal without the zeros at the end of its coefficient, of which
it drops at most `fuel`. -/
def trim : Nat → Decimal → Decimal
  | 0, d => d
  | fuel + 1, d =>
    if d.coefficient ≠ 0 ∧ d.coefficient % 10 = 0 then
      trim fuel ⟨d.coefficient / 10, d.exponent + 1⟩
    else d

namespace Interval

/-- Whether the decimal `coefficient * 10^exponent` lies in the interval. -/
def holds (i : Interval) (coefficient : Nat) (exponent : Int) : Bool :=
  let number := coefficient * Nat.pow 10 exponent.toNat * i.unit
  let scale := Nat.pow 10 (-exponent).toNat
  if i.closed then i.low * scale ≤ number && number ≤ i.high * scale
  else i.low * scale < number && number < i.high * scale

/-- The position of the decimal point: the value lies below ten to this power,
and not below ten to the power before. -/
def magnitude (i : Interval) : Int :=
  if i.unit ≤ i.value then digitCount (i.value / i.unit)
  else 1 - (digitCount ((i.unit - 1) / i.value) : Int)

/-- The decimal of the interval nearest to the value on the grid of multiples of
`10^exponent`, if the interval meets the grid. Only the value's two neighbours
on the grid can be it; a tie between them goes to the larger. -/
def onGrid (i : Interval) (exponent : Int) : Option Decimal :=
  let scale := Nat.pow 10 (-exponent).toNat
  let step := Nat.pow 10 exponent.toNat * i.unit
  let below := i.value * scale / step
  let above := below + 1
  match i.holds below exponent, i.holds above exponent with
  | false, false => none
  | true, false => some ⟨below, exponent⟩
  | false, true => some ⟨above, exponent⟩
  | true, true =>
    if i.value * scale - below * step < above * step - i.value * scale then
      some ⟨below, exponent⟩
    else some ⟨above, exponent⟩

/-- The decimal of at most `limit` digits with the fewest digits in the
interval, and of those the nearest to the value. Without one, zero. -/
def shortest (i : Interval) (limit : Nat) : Decimal :=
  let found := (List.range limit).findSome? fun n => i.onGrid (i.magnitude - (n + 1 : Nat))
  (found.getD ⟨0, 0⟩).trim limit

end Interval

end Decimal

end Stencil
