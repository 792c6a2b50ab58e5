import WattPlan.Scalar

/-!
# Random draws

A generator is a key, a block counter and what is left of the current block of words. A block is
twelve rounds of quarter-round mixing of constants, key and counter. Every draw is a function of
the next words of this one stream, so equal generators give equal draws.

`below`, `between`, `chance` and `sample` draw a number below a bound, a quantity from an interval,
an event of a given probability and distinct numbers below a bound.
-/

namespace WattPlan

/-- A stream of random words. -/
structure Generator where
  key : List UInt32
  block : UInt64
  pending : List UInt32
deriving DecidableEq, Repr

/-- A computation that draws from a generator and hands it on. -/
abbrev Draw (β : Type) : Type :=
  StateM Generator β

namespace Generator

/-- Rotation of a word to the left. -/
def rotateLeft (word bits : UInt32) : UInt32 :=
  (word <<< bits) ||| (word >>> (32 - bits))

/-- One quarter round on four words. -/
def quarter (a b c d : UInt32) : UInt32 × UInt32 × UInt32 × UInt32 :=
  let a := a + b
  let d := rotateLeft (d ^^^ a) 16
  let c := c + d
  let b := rotateLeft (b ^^^ c) 12
  let a := a + b
  let d := rotateLeft (d ^^^ a) 8
  let c := c + d
  let b := rotateLeft (b ^^^ c) 7
  (a, b, c, d)

/-- A quarter round on the words at four places of a block. -/
def mixAt (words : Array UInt32) (i j k l : Nat) : Array UInt32 :=
  let (a, b, c, d) :=
    quarter (words.getD i 0) (words.getD j 0) (words.getD k 0) (words.getD l 0)
  (((words.setIfInBounds i a).setIfInBounds j b).setIfInBounds k c).setIfInBounds l d

/-- A round on the columns of a block and a round on its diagonals. -/
def doubleRound (words : Array UInt32) : Array UInt32 :=
  let words := mixAt words 0 4 8 12
  let words := mixAt words 1 5 9 13
  let words := mixAt words 2 6 10 14
  let words := mixAt words 3 7 11 15
  let words := mixAt words 0 5 10 15
  let words := mixAt words 1 6 11 12
  let words := mixAt words 2 7 8 13
  mixAt words 3 4 9 14

/-- The words a block starts from: the constants, the key, the counter and two zeros. -/
def blockStart (key : List UInt32) (counter : UInt64) : Array UInt32 :=
  let constants : List UInt32 := [0x61707865, 0x3320646e, 0x79622d32, 0x6b206574]
  (constants ++ key ++ [counter.toUInt32, (counter >>> 32).toUInt32, 0, 0]).toArray

/-- The words of a block: twelve rounds, and the start added back. -/
def blockWords (key : List UInt32) (counter : UInt64) : List UInt32 :=
  let start := blockStart key counter
  let mixed := Nat.repeat doubleRound 6 start
  List.zipWith (· + ·) mixed.toList start.toList

/-- The words of a key from a 64-bit seed, by a linear congruential step and an output permutation
for each of them. -/
def keyWords : Nat → UInt64 → List UInt32
  | 0, _ => []
  | n + 1, state =>
      let next : UInt64 := state * 6364136223846793005 + 11634580027462260723
      let folded : UInt32 := (((next >>> 18) ^^^ next) >>> 27).toUInt32
      let turn : UInt32 := (next >>> 59).toUInt32
      rotateLeft folded (32 - turn) :: keyWords n next

/-- The generator of a seed. -/
def ofSeed (seed : UInt64) : Generator where
  key := keyWords 8 seed
  block := 0
  pending := []

/-- The next word of the stream. -/
def word : Draw UInt32 := fun generator =>
  match generator.pending with
  | next :: rest => (next, { generator with pending := rest })
  | [] =>
      let words := blockWords generator.key generator.block
      (words.headD 0, { generator with block := generator.block + 1, pending := words.drop 1 })

/-- The next two words of the stream as one number, the first one the lower half. -/
def doubleWord : Draw Nat := do
  let low ← word
  let high ← word
  pure (low.toNat + Nat.pow 2 32 * high.toNat)

/-- A number below a bound, by the upper half of a product. A second word settles whether the part
that was cut off carries over. The bound must be at most `2 ^ 32`: a larger one takes words of twice
the size, which are left out. -/
def below (bound : Nat) : Draw Nat := do
  let v ← word
  let product := v.toNat * bound
  let words := Nat.pow 2 32
  let high := product / words
  let low := product % words
  if low > words - bound then
    let w ← word
    pure (if low + w.toNat * bound / words ≥ words then high + 1 else high)
  else
    pure high

/-- A member of a nonempty list of at most `2 ^ 32`, each place equally likely. -/
def choose {β : Type} (xs : List β) (nonempty : xs ≠ []) : Draw β := do
  let place ← below xs.length
  pure (xs.getD place (xs.head nonempty))

/-- A member of a list if it has one; an empty list takes no draw. -/
def choose? {β : Type} (xs : List β) : Draw (Option β) :=
  if nonempty : xs = [] then pure none
  else do
    let chosen ← choose xs nonempty
    pure (some chosen)

/-- Can a quantity be drawn from the interval between two bounds? Its width must be finite. -/
def hasWidth {α : Type} [Scalar α] (low high : α) : Bool :=
  Scalar.isFinite (high - low)

/-- A quantity between two bounds, from 52 random bits. The interval must have a finite width
(`hasWidth`). -/
def between {α : Type} [Scalar α] (low high : α) : Draw α := do
  let bits ← doubleWord
  let share : α := Scalar.ofNat (bits / Nat.pow 2 12) / Scalar.ofNat (Nat.pow 2 52)
  pure (share * (high - low) + low)

/-- Does an event of the given probability happen? A certain one takes no draw. -/
def chance {α : Type} [Scalar α] (probability : α) : Draw Bool :=
  if probability == 1 then pure true
  else do
    let bits ← doubleWord
    pure (decide (bits < Scalar.toNat (probability * Scalar.ofNat (Nat.pow 2 64))))

/-- One step of sampling by replacement: the drawn number, where it was drawn before replaced
there by the bound. -/
def insertDrawn (chosen : List Nat) (bound drawn : Nat) : List Nat :=
  if drawn ∈ chosen then
    chosen.map (fun x => if x = drawn then bound else x) ++ [drawn]
  else chosen ++ [drawn]

/-- Sampling by replacement: a draw up to each of `bound, bound + 1, …`, `count` of them. -/
def sampleByReplacement : Nat → Nat → List Nat → Draw (List Nat)
  | 0, _, chosen => pure chosen
  | count + 1, bound, chosen => do
      let drawn ← below (bound + 1)
      sampleByReplacement count (bound + 1) (insertDrawn chosen bound drawn)

/-- The list with two places exchanged. -/
def swapAt {β : Type} (xs : List β) (i j : Nat) : List β :=
  match xs[i]?, xs[j]? with
  | some x, some y => (xs.set i y).set j x
  | _, _ => xs

/-- Sampling by exchange: each of `count` places from `place` on is exchanged with a place drawn
from there to the end. -/
def sampleByExchange : Nat → Nat → List Nat → Draw (List Nat)
  | 0, _, numbers => pure numbers
  | count + 1, place, numbers => do
      let offset ← below (numbers.length - place)
      sampleByExchange count (place + 1) (swapAt numbers place (place + offset))

/-- Small samples, and samples that are few among many, are drawn by replacement. Few are `count`
with `(10 + 8 / 5 * count) * count` at most the size, in single precision. This is the rule for sizes
below 500000 and fewer than 163 numbers, or more of them if the size is below 270 for each. Larger
sizes have other factors, and many numbers among very many are drawn by trial; both are left out. -/
def prefersReplacement (size count : Nat) : Bool :=
  let slope : Float32 := 1.6
  let start : Float32 := 10.0
  let bound := (start + slope * Float32.ofNat count) * Float32.ofNat count
  count ≤ 11 || (count < 163 && decide (bound ≤ Float32.ofNat size))

/-- `count` distinct numbers below `size`, in random order, for the sizes and counts of
`prefersReplacement`. -/
def sample (size count : Nat) : Draw (List Nat) :=
  if prefersReplacement size count then
    sampleByReplacement count (size - count) []
  else do
    let numbers ← sampleByExchange count 0 (List.range size)
    pure (numbers.take count)

end Generator

end WattPlan
