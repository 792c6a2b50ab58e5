/-!
# Quantities

Times, prices, data sizes, powers and probabilities are all computed in one scalar type. `Scalar`
lists the operations that planning needs of it, so that each definition of the library is written
once: it runs at `Float`, and it can be read at any exact type that has the same operations.

The operations follow the arithmetic of a number type that has infinities and an undefined value.
`Scalar.max` and `Scalar.min` pass over an undefined operand and keep the first of two equal ones.
-/

namespace WattPlan

/-- The operations on quantities. `toInt` and `toNat` take the whole part, held to the range of a
signed or an unsigned 64-bit word, and give 0 for an undefined value; `totalOrder` compares any two
values, the undefined ones included. -/
class Scalar (α : Type) extends Add α, Sub α, Mul α, Div α, Neg α, LT α, LE α, BEq α where
  ofNat : Nat → α
  infinity : α
  isNaN : α → Bool
  isFinite : α → Bool
  decLt : ∀ a b : α, Decidable (a < b)
  decLe : ∀ a b : α, Decidable (a ≤ b)
  totalOrder : α → α → Ordering
  floor : α → α
  round : α → α
  toInt : α → Int
  toNat : α → Nat
  exp : α → α
  pow : α → α → α

variable {α : Type} [Scalar α]

instance (priority := low) Scalar.instOfNat (n : Nat) : OfNat α n := ⟨Scalar.ofNat n⟩

instance Scalar.instDecidableLt (a b : α) : Decidable (a < b) := Scalar.decLt a b

instance Scalar.instDecidableLe (a b : α) : Decidable (a ≤ b) := Scalar.decLe a b

namespace Scalar

/-- The larger of two quantities. -/
protected def max (a b : α) : α :=
  if isNaN a then b else if a < b then b else a

/-- The smaller of two quantities. -/
protected def min (a b : α) : α :=
  if isNaN a then b else if b < a then b else a

/-- The sum of a list, from left to right. The empty sum is the negative zero, which no addition
can tell from nothing added. -/
def sum (xs : List α) : α :=
  xs.foldl (· + ·) (-0)

/-- The arithmetic mean of a list. -/
def mean (xs : List α) : α :=
  sum xs / ofNat xs.length

/-- The largest member of a list, not below `start`. -/
def maxFrom (start : α) (xs : List α) : α :=
  xs.foldl Scalar.max start

/-- The smallest member of a list, not above `start`. -/
def minFrom (start : α) (xs : List α) : α :=
  xs.foldl Scalar.min start

/-- A quantity that may stand for an amount: finite and not below zero. -/
def isAmount (a : α) : Bool :=
  isFinite a && !decide (a < 0)

/-- Square-and-multiply: `r * a ^ n`, where `fuel` bounds the number of binary digits of `n`. -/
def powNatFrom (fuel : Nat) (a : α) (n : Nat) (r : α) : α :=
  match fuel with
  | 0 => r
  | fuel + 1 =>
      let r := if n % 2 = 1 then r * a else r
      if n / 2 = 0 then r else powNatFrom fuel (a * a) (n / 2) r

/-- `a ^ n` by repeated squaring, lowest binary digit first. -/
def powNat (a : α) (n : Nat) : α :=
  powNatFrom (n + 1) a n 1

/-- `a ^ n` for a whole exponent of either sign. -/
def powInt (a : α) (n : Int) : α :=
  if n < 0 then 1 / powNat a n.natAbs else powNat a n.natAbs

end Scalar

end WattPlan
