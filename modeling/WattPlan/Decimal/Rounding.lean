import WattPlan.Decimal

/-!
# Decimals and binary floating point

A finite double is `m * 2 ^ q`. The reals that round to it form an interval, and every decimal in
this interval reads back as the same double. `shortest` finds, among the decimals of fewest digits
in the interval, the one nearest to the double; `atPlaces` rounds to a set number of decimal
places. Both compute in exact natural arithmetic.
-/

namespace WattPlan.Decimal

/-- Which way a number half way between two decimals goes. -/
inductive Tie where
  | toEven
  | up

/-- A finite double without its sign, `mantissa * 2 ^ scale`. Below a power of two the doubles lie
closer together than above it, which `narrowBelow` records. -/
structure Binary where
  mantissa : Nat
  scale : Int
  narrowBelow : Bool

/-- The magnitude of a finite double from its bits. -/
def Binary.ofBits (bits : UInt64) : Binary :=
  let exponent : Nat := (bits.toNat / Nat.pow 2 52) % Nat.pow 2 11
  let fraction : Nat := bits.toNat % Nat.pow 2 52
  if exponent = 0 then ⟨fraction, -1074, false⟩
  else ⟨Nat.pow 2 52 + fraction, (exponent : Int) - 1075, fraction = 0 && exponent > 1⟩

/-- Numerator and denominator of `n * base ^ power`. -/
def scaled (n base : Nat) (power : Int) : Nat × Nat :=
  (n * Nat.pow base power.toNat, Nat.pow base (-power).toNat)

/-- How `a * 10 ^ i` compares with `b * 2 ^ j`. -/
def compareScaled (a : Nat) (i : Int) (b : Nat) (j : Int) : Ordering :=
  let (an, ad) := scaled a 10 i
  let (bn, bd) := scaled b 2 j
  compare (an * bd) (bn * ad)

/-- Does the decimal `digits * 10 ^ exponent` lie among the reals that round to `x`? The ends of
the interval belong to it when the mantissa is even. -/
def Binary.readsBack (x : Binary) (digits : Nat) (exponent : Int) : Bool :=
  let low := if x.narrowBelow then 4 * x.mantissa - 1 else 4 * x.mantissa - 2
  let high := 4 * x.mantissa + 2
  let ends := x.mantissa % 2 = 0
  let fromLow := compareScaled digits exponent low (x.scale - 2)
  let toHigh := compareScaled digits exponent high (x.scale - 2)
  (fromLow = .gt || (ends && fromLow = .eq)) && (toHigh = .lt || (ends && toHigh = .eq))

/-- The whole part of `x / 10 ^ exponent`. -/
def Binary.gridFloor (x : Binary) (exponent : Int) : Nat :=
  let (n, d) := scaled x.mantissa 2 x.scale
  let (gn, gd) := scaled 1 10 exponent
  n * gd / (d * gn)

/-- The least power `k` with `x < 10 ^ k`, sought upwards from a bound that is not above it. -/
def Binary.powerAbove (x : Binary) : Nat → Int → Int
  | 0, k => k
  | steps + 1, k =>
      if compareScaled 1 k x.mantissa x.scale = .gt then k else powerAbove x steps (k + 1)

/-- The least power `k` with `x < 10 ^ k`. The binary logarithm gives it up to a step or two. -/
def Binary.magnitude (x : Binary) : Int :=
  let log := (x.mantissa.log2 : Int) + x.scale
  x.powerAbove 4 (Int.fdiv (log * 30103) 100000 - 1)

/-- The decimals of `10 ^ exponent` next to `x` that read back as `x`, the nearer one first. -/
def Binary.onGrid (x : Binary) (tie : Tie) (exponent : Int) : List Nat :=
  let below := x.gridFloor exponent
  let above := below + 1
  let order :=
    match compareScaled (2 * below + 1) exponent (2 * x.mantissa) x.scale with
    | .gt => [below, above]
    | .lt => [above, below]
    | .eq =>
        match tie with
        | .up => [above, below]
        | .toEven => if below % 2 = 0 then [below, above] else [above, below]
  order.filter fun digits => x.readsBack digits exponent

/-- The digits and power of ten of the shortest decimal for `x`, with at least `count` digits and
at most `count + steps`; where none is short enough, the digits down to that place. -/
def Binary.shortestFrom (x : Binary) (tie : Tie) (magnitude : Int) : Nat → Nat → Nat × Int
  | 0, count => (x.gridFloor (magnitude - count), magnitude - count)
  | steps + 1, count =>
      match x.onGrid tie (magnitude - count) with
      | digits :: _ => (digits, magnitude - count)
      | [] => shortestFrom x tie magnitude steps (count + 1)

/-- Moves trailing zeros of the digits into the power of ten. -/
def stripZeros : Nat → Nat → Int → Nat × Int
  | 0, digits, exponent => (digits, exponent)
  | fuel + 1, digits, exponent =>
      if digits ≠ 0 ∧ digits % 10 = 0 then stripZeros fuel (digits / 10) (exponent + 1)
      else (digits, exponent)

/-- The shortest decimal that reads back as a finite double, and the nearest of those. -/
def shortest (tie : Tie) (x : Float) : Decimal :=
  let binary := Binary.ofBits x.toBits
  let negative := x.toBits.toNat ≥ Nat.pow 2 63
  if binary.mantissa = 0 then ⟨negative, 0, 0⟩
  else
    let (digits, exponent) := binary.shortestFrom tie binary.magnitude 18 1
    let (digits, exponent) := stripZeros 20 digits exponent
    ⟨negative, digits, exponent⟩

/-- A quotient of naturals rounded to the nearest whole number, a half to the even one. -/
def roundDiv (n d : Nat) : Nat :=
  let quotient := n / d
  match compare (2 * (n % d)) d with
  | .lt => quotient
  | .gt => quotient + 1
  | .eq => if quotient % 2 = 0 then quotient else quotient + 1

/-- A finite double rounded to a number of decimal places. -/
def atPlaces (places : Nat) (x : Float) : Decimal :=
  let binary := Binary.ofBits x.toBits
  let (n, d) := scaled binary.mantissa 2 binary.scale
  ⟨x.toBits.toNat ≥ Nat.pow 2 63, roundDiv (n * Nat.pow 10 places) d, -(places : Int)⟩

/-- The double nearest to a decimal. Beyond the range of the doubles this is an infinity or a zero,
found without writing the number out. -/
def toFloat (x : Decimal) : Float :=
  let magnitude := x.exponent + (digitChars x.digits).length
  let size : Float :=
    if x.digits = 0 ∨ magnitude < -400 then 0.0
    else if magnitude > 400 then 1.0 / 0.0
    else Float.ofScientific x.digits (x.exponent < 0) x.exponent.natAbs
  if x.negative then -size else size

end WattPlan.Decimal
