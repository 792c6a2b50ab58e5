import WattPlan.Decimal.Layout
import WattPlan.Numeral

/-!
# The written forms of a double

Every form has the fewest digits that read back; they differ in where an exponent begins, in the
point of a whole number and in the words for the infinities and the undefined value.
-/

namespace WattPlan

open Decimal

/-- Messages write every place out and end a whole number without a point. -/
def messageLayout : Layout where
  tie := .up
  exponentBelow := none
  exponentFrom := none
  keepPoint := false
  infinity := "inf"
  undefined := "NaN"

/-- Documents write the places out from `10 ^ -5` up to `10 ^ 16`. -/
def documentLayout : Layout where
  tie := .toEven
  exponentBelow := some (-5)
  exponentFrom := some 16
  keepPoint := true
  infinity := ".inf"
  undefined := ".nan"

/-- Reports write the places out from `10 ^ -4` up to `10 ^ 16`. -/
def reportLayout : Layout where
  tie := .up
  exponentBelow := some (-4)
  exponentFrom := some 16
  keepPoint := true
  infinity := "inf"
  undefined := "NaN"

/-- A number of a document: a decimal within the range of the doubles, with at most one sign, or
one of the words for the infinities and the undefined value. -/
def numberOfDocument? (text : String) : Option Float :=
  let chars := text.toList
  let unsigned := if chars.head? = some '+' then chars.drop 1 else chars
  let word := String.ofList unsigned
  if unsigned.length < chars.length ∧ (unsigned.head? = some '+' ∨ unsigned.head? = some '-') then
    none
  else if word = ".inf" ∨ word = ".Inf" ∨ word = ".INF" then some (1.0 / 0.0)
  else if text = "-.inf" ∨ text = "-.Inf" ∨ text = "-.INF" then some (-(1.0 / 0.0))
  else if text = ".nan" ∨ text = ".NaN" ∨ text = ".NAN" then some (0.0 / 0.0)
  else ((ofChars? unsigned).map toFloat).filter Float.isFinite

/-- A number of a command line: a decimal, or a word for an infinity or the undefined value, in
either case of letters and with a sign. -/
def numberOfWord? (text : String) : Option Float :=
  let (negative, unsigned) := splitSign text.toList
  let word := String.ofList (unsigned.map Char.toLower)
  let size? : Option Float :=
    if word = "inf" ∨ word = "infinity" then some (1.0 / 0.0)
    else if word = "nan" then some (0.0 / 0.0)
    else none
  match size? with
  | some size => some (if negative then -size else size)
  | none => (ofChars? text.toList).map toFloat

instance numeralFloat : Numeral Float where
  message := messageLayout.write
  document := documentLayout.write
  report := reportLayout.write
  fixed := messageLayout.writeFixed
  ofDocument? := numberOfDocument?
  ofWord? := numberOfWord?

end WattPlan
