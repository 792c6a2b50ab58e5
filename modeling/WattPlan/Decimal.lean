/-!
# Decimals

A decimal is a sign, a whole number of digits and a power of ten. This module writes the digits of
a natural number and reads them back, and reads a decimal as people write it: a sign, digits with
at most one point among them, and an exponent.
-/

namespace WattPlan

/-- `± digits * 10 ^ exponent`. -/
structure Decimal where
  negative : Bool
  digits : Nat
  exponent : Int
deriving DecidableEq, Repr

namespace Decimal

/-- The digits of a natural number, in base ten, the highest first. -/
def digitChars (n : Nat) : List Char :=
  Nat.toDigits 10 n

/-- A natural number in base ten. -/
def natText (n : Nat) : String :=
  String.ofList (digitChars n)

/-- A whole number in base ten, with a minus sign below zero. -/
def intText (n : Int) : String :=
  if n < 0 then "-" ++ natText n.natAbs else natText n.natAbs

/-- The value of a digit in a base up to sixteen. -/
def digitValue? (base : Nat) (c : Char) : Option Nat :=
  let value? :=
    if '0' ≤ c ∧ c ≤ '9' then some (c.toNat - '0'.toNat)
    else if 'a' ≤ c ∧ c ≤ 'f' then some (c.toNat - 'a'.toNat + 10)
    else if 'A' ≤ c ∧ c ≤ 'F' then some (c.toNat - 'A'.toNat + 10)
    else none
  value?.filter (· < base)

/-- The number that digits after `n` stand for. -/
def readDigits? (base : Nat) (n : Nat) : List Char → Option Nat
  | [] => some n
  | c :: rest => (digitValue? base c).bind fun d => readDigits? base (base * n + d) rest

/-- A natural number from a nonempty row of digits. -/
def readNat? (base : Nat) (digits : List Char) : Option Nat :=
  if digits.isEmpty then none else readDigits? base 0 digits

/-- A sign in front, and the rest. No sign is a positive one. -/
def splitSign : List Char → Bool × List Char
  | '-' :: rest => (true, rest)
  | '+' :: rest => (false, rest)
  | chars => (false, chars)

/-- The exponent after the digits: nothing, or `e` with a whole number of either sign. -/
def readExponent? : List Char → Option Int
  | [] => some 0
  | c :: rest =>
      if c = 'e' ∨ c = 'E' then
        let (negative, digits) := splitSign rest
        (readNat? 10 digits).map fun n => if negative then -(n : Int) else n
      else none

/-- A decimal as it is written: a sign, digits with at most one point and at least one digit, an
exponent. -/
def ofChars? (chars : List Char) : Option Decimal := do
  let (negative, unsigned) := splitSign chars
  let whole := unsigned.takeWhile Char.isDigit
  let rest := unsigned.dropWhile Char.isDigit
  let (fraction, rest) :=
    match rest with
    | '.' :: more => (more.takeWhile Char.isDigit, more.dropWhile Char.isDigit)
    | _ => ([], rest)
  let digits ← readNat? 10 (whole ++ fraction)
  let exponent ← readExponent? rest
  pure ⟨negative, digits, exponent - fraction.length⟩

end Decimal

end WattPlan
