import WattPlan.Scalar

/-!
# Quantities in floating point

`Float` as a scalar type. The total order of two floats is the order of their bit patterns, read
as sign and magnitude: the negative zero comes before the positive one, and the undefined value
after everything else.
-/

namespace WattPlan

/-- A number that orders the floats as their signs and magnitudes do. -/
def totalOrderKey (x : Float) : Nat :=
  let bits := x.toBits.toNat
  if bits < Nat.pow 2 63 then Nat.pow 2 63 + bits else Nat.pow 2 64 - 1 - bits

/-- The greatest whole number that is not above a float. Numbers without a fraction, among them
those that are not finite, stay as they are. -/
def roundDown (x : Float) : Float :=
  match x.toModel.unpack with
  | .finite sign mantissa exponent _ =>
      let unit := Nat.pow 2 (-exponent).toNat
      if 0 ≤ exponent then x
      else match sign with
        | .positive => Float.ofNat (mantissa / unit)
        | .negative => -Float.ofNat ((mantissa + unit - 1) / unit)
  | _ => x

/-- The nearest whole number, the one farther from zero of two. Numbers without a fraction, among
them those that are not finite, stay as they are. -/
def roundHalfAway (x : Float) : Float :=
  match x.toModel.unpack with
  | .finite sign mantissa exponent _ =>
      let unit := Nat.pow 2 (-exponent).toNat
      let whole := Float.ofNat ((2 * mantissa + unit) / (2 * unit))
      if 0 ≤ exponent then x
      else match sign with
        | .positive => whole
        | .negative => -whole
  | _ => x

instance scalarFloat : Scalar Float where
  ofNat := Float.ofNat
  infinity := 1.0 / 0.0
  isNaN := Float.isNaN
  isFinite := Float.isFinite
  decLt := fun a b => inferInstanceAs (Decidable (a < b))
  decLe := fun a b => inferInstanceAs (Decidable (a ≤ b))
  totalOrder := fun a b => compare (totalOrderKey a) (totalOrderKey b)
  floor := roundDown
  round := roundHalfAway
  toInt := fun x => x.toInt64.toInt
  toNat := fun x => x.toUInt64.toNat
  exp := Float.exp
  pow := Float.pow

end WattPlan
