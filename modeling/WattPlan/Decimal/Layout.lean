import WattPlan.Decimal.Rounding

/-!
# Layouts of numbers

A layout says how the digits of a number become text: up to which size all places are written out,
whether a whole number keeps a point and a zero, and the words for what is not a finite number.
-/

namespace WattPlan.Decimal

/-- How numbers are written. A number whose first digit stands for `10 ^ e` has an exponent when
`e < exponentBelow` or `exponentFrom ≤ e`. -/
structure Layout where
  tie : Tie
  exponentBelow : Option Int
  exponentFrom : Option Int
  keepPoint : Bool
  infinity : String
  undefined : String

/-- The digits around a decimal point, with zeros where the digits do not reach. -/
def positional (keepPoint : Bool) (digits : Nat) (exponent : Int) : String :=
  let chars := digitChars digits
  if 0 ≤ exponent then
    let whole := String.ofList (chars ++ List.replicate exponent.toNat '0')
    if keepPoint then whole ++ ".0" else whole
  else
    let places := exponent.natAbs
    let padded := List.replicate (places + 1 - chars.length) '0' ++ chars
    let split := padded.length - places
    String.ofList (padded.take split) ++ "." ++ String.ofList (padded.drop split)

/-- One digit, a point and the others where there are others, and the exponent. -/
def scientific (digits : Nat) (exponent : Int) : String :=
  let chars := digitChars digits
  let power := exponent + chars.length - 1
  let fraction := chars.drop 1
  let point := if fraction.isEmpty then "" else "."
  String.ofList (chars.take 1) ++ point ++ String.ofList fraction ++ "e" ++ intText power

/-- A finite decimal in a layout. -/
def Layout.finite (layout : Layout) (x : Decimal) : String :=
  let power := x.exponent + (digitChars x.digits).length - 1
  let small := x.digits ≠ 0 ∧ layout.exponentBelow.any (power < ·)
  let large := x.digits ≠ 0 ∧ layout.exponentFrom.any (· ≤ power)
  let size :=
    if small ∨ large then scientific x.digits x.exponent
    else positional layout.keepPoint x.digits x.exponent
  if x.negative then "-" ++ size else size

/-- A double in the fewest digits that read back. -/
def Layout.write (layout : Layout) (x : Float) : String :=
  if x.isNaN then layout.undefined
  else if x.isInf then if x < 0 then "-" ++ layout.infinity else layout.infinity
  else layout.finite (shortest layout.tie x)

/-- A double with a set number of decimal places, all places written out. -/
def Layout.writeFixed (layout : Layout) (places : Nat) (x : Float) : String :=
  if x.isNaN then layout.undefined
  else if x.isInf then if x < 0 then "-" ++ layout.infinity else layout.infinity
  else
    let rounded := atPlaces places x
    let size := positional false rounded.digits rounded.exponent
    if rounded.negative then "-" ++ size else size

end WattPlan.Decimal
