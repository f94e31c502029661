import Stencil.Decimal.Shortest
/- Writing a decimal down: positionally, with as many zeros as it takes, or with
   an exponent. A `Layout` holds the choices that a text format makes. -/
namespace Stencil.Decimal

/-- The choices of a text format. Decimals whose leading digit counts ten to a
power within `range` are written without an exponent (all of them, when it
is `none`), and a whole number written so is followed by `wholeMark`. -/
structure Layout where
  range : Option (Int × Int)
  wholeMark : String
  deriving DecidableEq, Repr

/-- The characters of a natural number in base ten. -/
def digits (n : Nat) : List Char :=
  Nat.toDigits 10 n

/-- Whether a leading digit at this power of ten is written positionally. -/
def Layout.isPositional (l : Layout) (power : Int) : Bool :=
  match l.range with
  | none => true
  | some (least, greatest) => least ≤ power && power ≤ greatest

/-- Digits with a decimal point after the first `point` of them, with zeros in
the places that the digits do not reach. -/
def positional (ds : List Char) (point : Int) (wholeMark : List Char) : List Char :=
  if point ≤ 0 then '0' :: '.' :: List.replicate (-point).toNat '0' ++ ds
  else if ds.length ≤ point.toNat then
    ds ++ List.replicate (point.toNat - ds.length) '0' ++ wholeMark
  else ds.take point.toNat ++ '.' :: ds.drop point.toNat

/-- Digits with a decimal point after the first, if there are more, and the
power of ten that the first one counts. -/
def scientific (ds : List Char) (power : Int) : List Char :=
  let fraction := match ds.drop 1 with
    | [] => []
    | rest => '.' :: rest
  let sign := if power < 0 then ['-'] else []
  ds.take 1 ++ fraction ++ 'e' :: sign ++ digits power.natAbs

/-- The text of a decimal. -/
def Layout.write (l : Layout) (d : Decimal) : String :=
  let ds := digits d.coefficient
  let point := if d.coefficient = 0 then 1 else (ds.length : Int) + d.exponent
  String.ofList <|
    if l.isPositional (point - 1) then positional ds point l.wholeMark.toList
    else scientific ds (point - 1)

end Stencil.Decimal
