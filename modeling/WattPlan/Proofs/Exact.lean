import Mathlib.Algebra.Order.BigOperators.Group.List
import Mathlib.Algebra.Order.Floor.Ring
import Mathlib.Data.Rat.Floor
import Mathlib.Tactic.Linarith
import WattPlan.Scalar

/-!
# Exact quantities

`Exact K` reads the arithmetic of quantities over an ordered field without rounding. Next to the
members of the field it has the two infinities and the undefined value, because planning uses an
endless last gap, links without a limit and averages over nothing; they follow the rules of binary
floating point, where a divisor of zero counts as a positive one. The two transcendental operations
have no exact reading and are a parameter, `Exponentials`.
-/

namespace WattPlan

/-- An exact quantity. -/
inductive Exact (K : Type) where
  | negInfinity
  | finite (x : K)
  | infinity
  | undefined
deriving DecidableEq, Repr

/-- An exponential function and a power function of a field. -/
class Exponentials (K : Type) where
  exp : K → K
  pow : K → K → K

namespace Exact

section Operations

variable {K : Type} [Field K] [LinearOrder K]

/-- The infinity of the sign of a number, undefined for 0. -/
def signed (x : K) : Exact K :=
  if 0 < x then infinity else if x < 0 then negInfinity else undefined

/-- The opposite quantity. -/
protected def neg : Exact K → Exact K
  | negInfinity => infinity
  | finite x => finite (-x)
  | infinity => negInfinity
  | undefined => undefined

/-- The sum of two quantities. Opposite infinities have none. -/
protected def add : Exact K → Exact K → Exact K
  | finite x, finite y => finite (x + y)
  | undefined, _ | _, undefined => undefined
  | infinity, negInfinity | negInfinity, infinity => undefined
  | infinity, _ | _, infinity => infinity
  | negInfinity, _ | _, negInfinity => negInfinity

/-- The product of two quantities. Nothing times an infinity is undefined. -/
protected def mul : Exact K → Exact K → Exact K
  | finite x, finite y => finite (x * y)
  | undefined, _ | _, undefined => undefined
  | infinity, finite x | finite x, infinity => signed x
  | negInfinity, finite x | finite x, negInfinity => signed (-x)
  | infinity, infinity | negInfinity, negInfinity => infinity
  | infinity, negInfinity | negInfinity, infinity => negInfinity

/-- The quotient of two quantities. -/
protected def div : Exact K → Exact K → Exact K
  | finite x, finite y => if y = 0 then signed x else finite (x / y)
  | undefined, _ | _, undefined => undefined
  | finite _, infinity | finite _, negInfinity => finite 0
  | infinity, finite y => if y < 0 then negInfinity else infinity
  | negInfinity, finite y => if y < 0 then infinity else negInfinity
  | infinity, infinity | infinity, negInfinity | negInfinity, infinity
  | negInfinity, negInfinity => undefined

/-- One quantity is less than another one. The undefined value is not compared. -/
protected def lt : Exact K → Exact K → Prop
  | finite x, finite y => x < y
  | negInfinity, finite _ | negInfinity, infinity | finite _, infinity => True
  | _, _ => False

/-- One quantity is at most another one. The undefined value is not compared. -/
protected def le : Exact K → Exact K → Prop
  | finite x, finite y => x ≤ y
  | negInfinity, negInfinity | negInfinity, finite _ | negInfinity, infinity => True
  | finite _, infinity | infinity, infinity => True
  | _, _ => False

/-- Two quantities are the same. The undefined value is not even the same as itself. -/
protected def beq : Exact K → Exact K → Bool
  | finite x, finite y => decide (x = y)
  | infinity, infinity | negInfinity, negInfinity => true
  | _, _ => false

/-- The kinds of quantities in their order. -/
def rank : Exact K → Nat
  | negInfinity => 0
  | finite _ => 1
  | infinity => 2
  | undefined => 3

/-- The order of all quantities, the undefined value last. -/
protected def compare : Exact K → Exact K → Ordering
  | finite x, finite y => Ord.compare x y
  | a, b => Ord.compare a.rank b.rank

instance instDecidableExactLt : ∀ a b : Exact K, Decidable (a.lt b)
  | finite x, finite y => inferInstanceAs (Decidable (x < y))
  | negInfinity, finite _ | negInfinity, infinity | finite _, infinity => isTrue trivial
  | negInfinity, negInfinity | finite _, negInfinity | infinity, negInfinity
  | infinity, finite _ | infinity, infinity | undefined, _ => isFalse id
  | negInfinity, undefined | finite _, undefined | infinity, undefined => isFalse id

instance instDecidableExactLe : ∀ a b : Exact K, Decidable (a.le b)
  | finite x, finite y => inferInstanceAs (Decidable (x ≤ y))
  | negInfinity, negInfinity | negInfinity, finite _ | negInfinity, infinity => isTrue trivial
  | finite _, infinity | infinity, infinity => isTrue trivial
  | finite _, negInfinity | infinity, negInfinity | infinity, finite _ => isFalse id
  | undefined, _ => isFalse id
  | negInfinity, undefined | finite _, undefined | infinity, undefined => isFalse id

variable [FloorRing K]

/-- A function on the field, which keeps the other quantities. -/
def onFinite (f : K → K) : Exact K → Exact K
  | finite x => finite (f x)
  | a => a

/-- The whole part of a number. -/
def truncate (x : K) : Int :=
  if 0 ≤ x then ⌊x⌋ else ⌈x⌉

/-- The nearest whole number, away from 0 where there are two. -/
def roundHalf (x : K) : Int :=
  if 0 ≤ x then ⌊x + 1 / 2⌋ else ⌈x - 1 / 2⌉

/-- The whole part, held to a range, and 0 for the undefined value. -/
def toRange (low high : Int) : Exact K → Int
  | negInfinity => low
  | finite x => max low (min (truncate x) high)
  | infinity => high
  | undefined => 0

variable [Exponentials K]

instance instScalar : Scalar (Exact K) where
  add := Exact.add
  sub a b := Exact.add a (Exact.neg b)
  mul := Exact.mul
  div := Exact.div
  neg := Exact.neg
  lt := Exact.lt
  le := Exact.le
  beq := Exact.beq
  ofNat n := finite n
  infinity := infinity
  isNaN a := decide (a = undefined)
  isFinite a := decide (a.rank = 1)
  decLt := instDecidableExactLt
  decLe := instDecidableExactLe
  totalOrder := Exact.compare
  floor := onFinite fun x => ⌊x⌋
  round := onFinite fun x => roundHalf x
  toInt := toRange (-9223372036854775808) 9223372036854775807
  toNat a := (toRange 0 18446744073709551615 a).toNat
  exp
    | negInfinity => finite 0
    | finite x => finite (Exponentials.exp x)
    | infinity => infinity
    | undefined => undefined
  pow
    | finite x, finite y => finite (Exponentials.pow x y)
    | _, _ => undefined

end Operations

/-- The member of the field that a finite quantity stands for, 0 for any other quantity. -/
def value {K : Type} [Zero K] : Exact K → K
  | finite x => x
  | _ => 0

section Laws

variable {K : Type} [Field K] [LinearOrder K] [FloorRing K] [Exponentials K] {x y : K}

@[simp]
theorem add_finite : (finite x + finite y : Exact K) = finite (x + y) :=
  rfl

@[simp]
theorem sub_finite : (finite x - finite y : Exact K) = finite (x - y) :=
  congrArg finite (sub_eq_add_neg x y).symm

@[simp]
theorem mul_finite : (finite x * finite y : Exact K) = finite (x * y) :=
  rfl

@[simp]
theorem le_finite : (finite x : Exact K) ≤ finite y ↔ x ≤ y :=
  Iff.rfl

@[simp]
theorem lt_finite : (finite x : Exact K) < finite y ↔ x < y :=
  Iff.rfl

/-- Quantities that are found to be the same are equal. -/
theorem eq_of_beq {a b : Exact K} (h : (a == b) = true) : a = b := by
  cases a <;> cases b <;> first
    | rfl
    | exact congrArg finite (of_decide_eq_true h)
    | cases h

/-- The order of quantities is transitive. -/
protected theorem le_trans {a b c : Exact K} (hab : a ≤ b) (hbc : b ≤ c) : a ≤ c := by
  -- Besides three numbers, either the least or the largest quantity is met, or nothing is compared.
  cases a <;> cases b <;> cases c <;> first
    | exact trivial
    | exact hab.elim
    | exact hbc.elim
    | exact le_finite.2 ((le_finite.1 hab).trans (le_finite.1 hbc))

/-- A quantity that is at most another one is defined, and so at most itself. -/
protected theorem le_self_of_le {a b : Exact K} (h : a ≤ b) : a ≤ a := by
  cases a with
  | finite x => exact le_finite.2 le_rfl
  | negInfinity | infinity => exact trivial
  | undefined => exact h.elim

/-- A quantity that is at most another one is not above it. -/
protected theorem not_lt_of_le {a b : Exact K} (hab : a ≤ b) : ¬ b < a := by
  intro hba
  cases a <;> cases b <;> first
    | exact hab.elim
    | exact hba.elim
    | exact (le_finite.1 hab).not_gt (lt_finite.1 hba)

/-- A quantity that is less than another one is at most that. -/
protected theorem le_of_lt {a b : Exact K} (hab : a < b) : a ≤ b := by
  cases a <;> cases b <;> first
    | exact trivial
    | exact hab.elim
    | exact le_finite.2 (lt_finite.1 hab).le

/-- A quantity that is less than another one is less than what that is at most. -/
protected theorem lt_of_lt_of_le {a b c : Exact K} (hab : a < b) (hbc : b ≤ c) : a < c := by
  cases a <;> cases b <;> cases c <;> first
    | exact trivial
    | exact hab.elim
    | exact hbc.elim
    | exact lt_finite.2 ((lt_finite.1 hab).trans_le (le_finite.1 hbc))

/-- A quantity that is at most another one is less than what that is less than. -/
protected theorem lt_of_le_of_lt {a b c : Exact K} (hab : a ≤ b) (hbc : b < c) : a < c := by
  cases a <;> cases b <;> cases c <;> first
    | exact trivial
    | exact hab.elim
    | exact hbc.elim
    | exact lt_finite.2 ((le_finite.1 hab).trans_lt (lt_finite.1 hbc))

/-- One of two defined quantities is not above the other one just when it is at most that. -/
protected theorem not_lt_iff {a b : Exact K} (ha : a ≠ undefined) (hb : b ≠ undefined) :
    ¬ b < a ↔ a ≤ b := by
  refine ⟨fun h => ?_, Exact.not_lt_of_le⟩
  cases a <;> cases b <;> first
    | exact trivial
    | exact absurd rfl ha
    | exact absurd rfl hb
    | exact absurd trivial h
    | exact le_finite.2 (not_lt.1 fun hlt => h (lt_finite.2 hlt))

/-- Of two quantities that are compared with others, one that is not above the other one is at most
that. -/
protected theorem le_of_not_lt {a b c d : Exact K} (hca : c ≤ a) (hbd : b ≤ d) (h : ¬ b < a) :
    a ≤ b := by
  have ha : a ≠ undefined := by
    rintro rfl
    cases c <;> exact hca.elim
  have hb : b ≠ undefined := by
    rintro rfl
    exact hbd.elim
  exact (Exact.not_lt_iff ha hb).1 h

/-- What is at most a quantity is at most its sum with a number that is not negative. -/
protected theorem le_add_of_nonneg [IsStrictOrderedRing K] {a b : Exact K} (hab : a ≤ b)
    (hx : 0 ≤ x) : a ≤ b + finite x := by
  cases a <;> cases b <;> first
    | exact trivial
    | exact hab.elim
    | exact le_finite.2 ((le_finite.1 hab).trans (le_add_of_nonneg_right hx))

/-- What is at most the first of two quantities is at most the larger of them. -/
protected theorem le_max_left {a b c : Exact K} (hab : a ≤ b) : a ≤ Scalar.max b c := by
  have hdefined : ¬ Scalar.isNaN b = true := by
    intro hundefined
    obtain rfl : b = undefined := by simpa [Scalar.isNaN] using hundefined
    cases a <;> exact hab.elim
  rw [Scalar.max, if_neg hdefined]
  split
  · rename_i hlt
    exact Exact.le_trans hab (Exact.le_of_lt hlt)
  · exact hab

/-- What is at most the second of two quantities is at most the larger of them. -/
protected theorem le_max_right {a b c : Exact K} (hac : a ≤ c) : a ≤ Scalar.max b c := by
  unfold Scalar.max
  split
  · exact hac
  · rename_i hdefined
    split
    · exact hac
    · rename_i hlt
      have hb : b ≠ undefined := fun h => hdefined (decide_eq_true h)
      have hc : c ≠ undefined := by
        rintro rfl
        cases a <;> exact hac.elim
      exact Exact.le_trans hac ((Exact.not_lt_iff hc hb).1 hlt)

/-- The larger of two quantities is at most what both of them are at most. -/
protected theorem max_le {a b c : Exact K} (hac : a ≤ c) (hbc : b ≤ c) : Scalar.max a b ≤ c := by
  unfold Scalar.max
  split
  · exact hbc
  · split
    · exact hbc
    · exact hac

/-- The larger of two quantities is the first one, if the second one is at most that. -/
protected theorem max_eq_left {a b : Exact K} (h : b ≤ a) : Scalar.max a b = a := by
  unfold Scalar.max
  split
  · rename_i hundefined
    obtain rfl : a = undefined := of_decide_eq_true hundefined
    cases b <;> exact h.elim
  · exact if_neg (Exact.not_lt_of_le h)

/-- The smaller of two quantities is the first one, if that is at most the second one. -/
protected theorem min_eq_left {a b : Exact K} (h : a ≤ b) : Scalar.min a b = a := by
  unfold Scalar.min
  split
  · rename_i hundefined
    obtain rfl : a = undefined := of_decide_eq_true hundefined
    exact h.elim
  · exact if_neg (Exact.not_lt_of_le h)

/-- What is at most two quantities is at most the smaller of them. -/
protected theorem le_min {a b c : Exact K} (hab : a ≤ b) (hac : a ≤ c) : a ≤ Scalar.min b c := by
  unfold Scalar.min
  split
  · exact hac
  · split
    · exact hac
    · exact hab

/-- The smaller of two quantities is at most what the first one is at most. -/
protected theorem min_le_of_left {a b c : Exact K} (hac : a ≤ c) : Scalar.min a b ≤ c := by
  unfold Scalar.min
  split
  · rename_i hundefined
    obtain rfl : a = undefined := of_decide_eq_true hundefined
    exact hac.elim
  · split
    · rename_i hlt
      exact Exact.le_trans (Exact.le_of_lt hlt) hac
    · exact hac

/-- The smaller of two quantities is at most what the second one is at most. -/
protected theorem min_le_of_right {a b c : Exact K} (hbc : b ≤ c) : Scalar.min a b ≤ c := by
  unfold Scalar.min
  split
  · exact hbc
  · rename_i hdefined
    split
    · exact hbc
    · rename_i hlt
      have ha : a ≠ undefined := fun h => hdefined (decide_eq_true h)
      have hb : b ≠ undefined := by
        rintro rfl
        exact hbc.elim
      exact Exact.le_trans ((Exact.not_lt_iff ha hb).1 hlt) hbc

/-- The largest of some quantities is at most what all of them are at most. -/
protected theorem maxFrom_le {as : List (Exact K)} {start c : Exact K} (hstart : start ≤ c)
    (h : ∀ a ∈ as, a ≤ c) : Scalar.maxFrom start as ≤ c := by
  induction as generalizing start with
  | nil => exact hstart
  | cons a as ih =>
      rw [List.forall_mem_cons] at h
      exact ih (Exact.max_le hstart h.1) h.2

/-- What is at most one of some quantities, or what they start from, is at most the largest of
them. -/
protected theorem le_maxFrom {as : List (Exact K)} {a start : Exact K}
    (h : a ≤ start ∨ ∃ b ∈ as, a ≤ b) : a ≤ Scalar.maxFrom start as := by
  induction as generalizing start with
  | nil => exact h.resolve_right (by simp)
  | cons first as ih =>
      apply ih
      rcases h with h | ⟨b, hb, hab⟩
      · exact .inl (Exact.le_max_left h)
      · rcases List.mem_cons.1 hb with rfl | hb
        · exact .inl (Exact.le_max_right hab)
        · exact .inr ⟨b, hb, hab⟩

/-- The smallest of some quantities is at most what one of them is at most. -/
protected theorem minFrom_le {as : List (Exact K)} {start c : Exact K}
    (h : start ≤ c ∨ ∃ a ∈ as, a ≤ c) : Scalar.minFrom start as ≤ c := by
  induction as generalizing start with
  | nil => exact h.resolve_right (by simp)
  | cons first as ih =>
      apply ih
      rcases h with h | ⟨a, ha, hac⟩
      · exact .inl (Exact.min_le_of_left h)
      · rcases List.mem_cons.1 ha with rfl | ha
        · exact .inl (Exact.min_le_of_right hac)
        · exact .inr ⟨a, ha, hac⟩

/-- What is not below a member of the field is a member that is as large, or infinity. -/
theorem finite_le_iff {a : Exact K} :
    finite x ≤ a ↔ (∃ y, a = finite y ∧ x ≤ y) ∨ a = infinity := by
  cases a with
  | finite y => simp
  | infinity => exact iff_of_true trivial (.inr rfl)
  | negInfinity | undefined => exact iff_of_false id (by simp)

/-- A quantity between two members of the field is one. -/
theorem exists_eq_finite {a : Exact K} (hlow : finite x ≤ a) (hhigh : a ≤ finite y) :
    ∃ z, a = finite z ∧ x ≤ z ∧ z ≤ y := by
  rcases finite_le_iff.1 hlow with ⟨z, rfl, hxz⟩ | rfl
  · exact ⟨z, rfl, hxz, hhigh⟩
  · exact hhigh.elim

/-- Exact quantities are compared by a total order. -/
instance transCmp_totalOrder : Std.TransCmp (Scalar.totalOrder : Exact K → Exact K → Ordering) where
  eq_swap := by
    intro a b
    show Exact.compare a b = (Exact.compare b a).swap
    cases a <;> cases b <;> first
      | rfl
      | exact Std.OrientedOrd.eq_swap
  isLE_trans := by
    intro a b c hab hbc
    change (Exact.compare a b).isLE = true at hab
    change (Exact.compare b c).isLE = true at hbc
    show (Exact.compare a c).isLE = true
    -- Among numbers the order is that of the field, and else that of the kinds.
    cases a <;> cases b <;> cases c <;> first
      | rfl
      | exact Bool.noConfusion hab
      | exact Bool.noConfusion hbc
      | exact Std.TransOrd.isLE_trans hab hbc

/-- The numeral 0 is the 0 of the field. -/
theorem zero_eq : (0 : Exact K) = finite 0 :=
  congrArg finite Nat.cast_zero

/-- The numeral 1 is the 1 of the field. -/
theorem one_eq : (1 : Exact K) = finite 1 :=
  congrArg finite Nat.cast_one

/-- The empty sum is 0. -/
theorem neg_zero_eq : (-0 : Exact K) = finite 0 := by
  show Exact.neg (0 : Exact K) = finite 0
  rw [zero_eq]
  exact congrArg finite neg_zero

@[simp]
theorem max_finite : Scalar.max (finite x : Exact K) (finite y) = finite (max x y) := by
  have hdefined : Scalar.isNaN (finite x : Exact K) = false := rfl
  rw [Scalar.max, hdefined, if_neg Bool.false_ne_true]
  by_cases h : x < y
  · rw [if_pos (lt_finite.2 h), max_eq_right h.le]
  · rw [if_neg fun hlt => h (lt_finite.1 hlt), max_eq_left (not_lt.1 h)]

@[simp]
theorem min_finite : Scalar.min (finite x : Exact K) (finite y) = finite (min x y) := by
  have hdefined : Scalar.isNaN (finite x : Exact K) = false := rfl
  rw [Scalar.min, hdefined, if_neg Bool.false_ne_true]
  by_cases h : y < x
  · rw [if_pos (lt_finite.2 h), min_eq_right h.le]
  · rw [if_neg fun hlt => h (lt_finite.1 hlt), min_eq_left (not_lt.1 h)]

/-- A quantity is a member of the field. -/
def IsFinite (a : Exact K) : Prop :=
  ∃ x, a = finite x

/-- The quantities that count as finite are the members of the field. -/
theorem isFinite_iff {a : Exact K} : Scalar.isFinite a = true ↔ a.IsFinite := by
  cases a <;> simp [Scalar.isFinite, rank, IsFinite]

/-- A quantity is a member of the field that is not negative. -/
def IsAmount (a : Exact K) : Prop :=
  ∃ x, a = finite x ∧ 0 ≤ x

/-- The quantities that may stand for an amount are the members of the field from 0 on. -/
theorem isAmount_iff {a : Exact K} : Scalar.isAmount a = true ↔ a.IsAmount := by
  rw [Scalar.isAmount, Bool.and_eq_true, isFinite_iff]
  constructor
  · rintro ⟨⟨x, rfl⟩, hnot⟩
    refine ⟨x, rfl, ?_⟩
    rw [zero_eq] at hnot
    simpa using hnot
  · rintro ⟨x, rfl, hx⟩
    refine ⟨⟨x, rfl⟩, ?_⟩
    rw [zero_eq]
    simpa using hx

/-- A numeral is a whole number of the field. -/
theorem ofNat_eq (n : Nat) : (Scalar.ofNat n : Exact K) = finite (n : K) :=
  rfl

omit [FloorRing K] [Exponentials K] in
/-- An amount is finite. -/
theorem IsAmount.isFinite {a : Exact K} (ha : a.IsAmount) : a.IsFinite :=
  ha.imp fun _ hx => hx.1

omit [FloorRing K] [Exponentials K] in
/-- An amount is the member of the field that it stands for, which is not negative. -/
theorem IsAmount.eq_value {a : Exact K} (ha : a.IsAmount) : a = finite a.value ∧ 0 ≤ a.value := by
  obtain ⟨x, rfl, hx⟩ := ha
  exact ⟨rfl, hx⟩

/-- Nothing is an amount. -/
theorem IsAmount.zero : (0 : Exact K).IsAmount :=
  ⟨0, zero_eq, le_rfl⟩

theorem IsAmount.add [IsStrictOrderedRing K] {a b : Exact K} (ha : a.IsAmount)
    (hb : b.IsAmount) : (a + b).IsAmount := by
  obtain ⟨x, rfl, hx⟩ := ha
  obtain ⟨y, rfl, hy⟩ := hb
  exact ⟨x + y, rfl, add_nonneg hx hy⟩

theorem IsFinite.ofNat (n : Nat) : (Scalar.ofNat n : Exact K).IsFinite :=
  ⟨n, rfl⟩

theorem IsFinite.add {a b : Exact K} (ha : a.IsFinite) (hb : b.IsFinite) : (a + b).IsFinite := by
  obtain ⟨x, rfl⟩ := ha
  obtain ⟨y, rfl⟩ := hb
  exact ⟨x + y, rfl⟩

theorem IsFinite.sub {a b : Exact K} (ha : a.IsFinite) (hb : b.IsFinite) : (a - b).IsFinite := by
  obtain ⟨x, rfl⟩ := ha
  obtain ⟨y, rfl⟩ := hb
  exact ⟨x - y, sub_finite⟩

theorem IsFinite.mul {a b : Exact K} (ha : a.IsFinite) (hb : b.IsFinite) : (a * b).IsFinite := by
  obtain ⟨x, rfl⟩ := ha
  obtain ⟨y, rfl⟩ := hb
  exact ⟨x * y, rfl⟩

theorem IsFinite.max {a b : Exact K} (ha : a.IsFinite) (hb : b.IsFinite) :
    (Scalar.max a b).IsFinite := by
  obtain ⟨x, rfl⟩ := ha
  obtain ⟨y, rfl⟩ := hb
  exact ⟨Max.max x y, max_finite⟩

theorem IsFinite.min {a b : Exact K} (ha : a.IsFinite) (hb : b.IsFinite) :
    (Scalar.min a b).IsFinite := by
  obtain ⟨x, rfl⟩ := ha
  obtain ⟨y, rfl⟩ := hb
  exact ⟨Min.min x y, min_finite⟩

theorem IsFinite.floor {a : Exact K} (ha : a.IsFinite) : (Scalar.floor a).IsFinite := by
  obtain ⟨x, rfl⟩ := ha
  exact ⟨⌊x⌋, rfl⟩

/-- A number over one that is not 0 is their quotient. -/
theorem div_finite (hy : y ≠ 0) : (finite x / finite y : Exact K) = finite (x / y) :=
  if_neg hy

/-- A finite quantity over a numeral that is not 0 is finite. -/
theorem IsFinite.div_ofNat [IsStrictOrderedRing K] {a : Exact K} (ha : a.IsFinite) {n : Nat}
    (hn : 0 < n) : (a / Scalar.ofNat n).IsFinite := by
  obtain ⟨x, rfl⟩ := ha
  exact ⟨x / n, div_finite (Nat.cast_ne_zero.2 hn.ne')⟩

/-- Dividing by a defined quantity above zero is multiplying with a number. -/
theorem exists_div_eq [IsStrictOrderedRing K] {b : Exact K} (hdefined : Scalar.isNaN b = false)
    (hpos : ¬ b ≤ 0) : ∃ c, 0 ≤ c ∧ ∀ x : K, (finite x / b : Exact K) = finite (x * c) := by
  rw [zero_eq] at hpos
  cases b with
  | negInfinity => exact absurd trivial hpos
  | finite y =>
      have hy : 0 < y := not_le.1 fun h => hpos (le_finite.2 h)
      refine ⟨y⁻¹, inv_nonneg.2 hy.le, fun x => ?_⟩
      rw [← div_eq_mul_inv, div_finite hy.ne']
  | infinity =>
      refine ⟨0, le_rfl, fun x => ?_⟩
      rw [mul_zero]
      rfl
  | undefined => cases hdefined

/-- Adding finite quantities one after another adds their sum. -/
theorem foldl_add_finite (xs : List K) (x : K) :
    (xs.map finite).foldl (· + ·) (finite x) = finite (x + xs.sum) := by
  induction xs generalizing x with
  | nil => simp
  | cons y ys ih =>
      rw [List.map_cons, List.foldl_cons, add_finite, ih, List.sum_cons, add_assoc]

/-- The sum of finite quantities is theirs. -/
theorem sum_map_finite (xs : List K) : Scalar.sum (xs.map finite) = finite xs.sum := by
  rw [Scalar.sum, neg_zero_eq, foldl_add_finite, zero_add]

omit [Field K] [LinearOrder K] [FloorRing K] [Exponentials K] in
/-- Finite quantities are those of a list over the field. -/
theorem exists_map_finite {as : List (Exact K)} (h : ∀ a ∈ as, a.IsFinite) :
    ∃ xs : List K, as = xs.map finite := by
  induction as with
  | nil => exact ⟨[], rfl⟩
  | cons a as ih =>
      rw [List.forall_mem_cons] at h
      obtain ⟨x, rfl⟩ := h.1
      obtain ⟨xs, rfl⟩ := ih h.2
      exact ⟨x :: xs, rfl⟩

/-- The sum of finite quantities from a finite one on is finite. -/
theorem IsFinite.foldl_add {as : List (Exact K)} {start : Exact K} (hstart : start.IsFinite)
    (h : ∀ a ∈ as, a.IsFinite) : (as.foldl (· + ·) start).IsFinite := by
  obtain ⟨x, rfl⟩ := hstart
  obtain ⟨xs, rfl⟩ := exists_map_finite h
  exact ⟨_, foldl_add_finite xs x⟩

/-- The sum of finite quantities is finite. -/
theorem IsFinite.sum {as : List (Exact K)} (h : ∀ a ∈ as, a.IsFinite) :
    (Scalar.sum as).IsFinite :=
  IsFinite.foldl_add ⟨0, neg_zero_eq⟩ h

/-- The sum of amounts is one. -/
theorem IsAmount.sum [IsStrictOrderedRing K] {as : List (Exact K)} (h : ∀ a ∈ as, a.IsAmount) :
    (Scalar.sum as).IsAmount := by
  obtain ⟨xs, rfl⟩ := exists_map_finite fun a ha => (h a ha).isFinite
  refine ⟨xs.sum, sum_map_finite xs, List.sum_nonneg fun x hx => ?_⟩
  obtain ⟨y, hy, hnonneg⟩ := h (finite x) (List.mem_map_of_mem hx)
  rwa [Exact.finite.inj hy]

/-- The mean of amounts is one, if there are any. -/
theorem IsAmount.mean [IsStrictOrderedRing K] {as : List (Exact K)} (h : ∀ a ∈ as, a.IsAmount)
    (hne : as ≠ []) : (Scalar.mean as).IsAmount := by
  have hlength : (0 : K) < as.length := Nat.cast_pos.2 (List.length_pos_iff.2 hne)
  obtain ⟨x, hsum, hx⟩ := IsAmount.sum h
  refine ⟨x / as.length, ?_, div_nonneg hx hlength.le⟩
  rw [Scalar.mean, hsum, ofNat_eq, div_finite hlength.ne']

/-- The smallest of finite quantities is finite, if there are any. -/
theorem IsFinite.minFrom {as : List (Exact K)} (h : ∀ a ∈ as, a.IsFinite) (hne : as ≠ []) :
    (Scalar.minFrom Scalar.infinity as).IsFinite := by
  have hfrom : ∀ {start : Exact K}, start.IsFinite → ∀ bs : List (Exact K),
      (∀ b ∈ bs, b.IsFinite) → (bs.foldl Scalar.min start).IsFinite := by
    intro start hstart bs
    induction bs generalizing start with
    | nil => exact fun _ => hstart
    | cons b bs ih =>
        intro hbs
        rw [List.forall_mem_cons] at hbs
        exact ih (hstart.min hbs.1) hbs.2
  cases as with
  | nil => exact absurd rfl hne
  | cons a as =>
      rw [List.forall_mem_cons] at h
      obtain ⟨x, rfl⟩ := h.1
      have hfirst : Scalar.min Scalar.infinity (finite x : Exact K) = finite x := rfl
      rw [Scalar.minFrom, List.foldl_cons, hfirst]
      exact hfrom ⟨x, rfl⟩ as h.2

/-- The largest of finite quantities is one of them, or the one to start from, and none of them is
larger. -/
theorem maxFrom_finite (as : List (Exact K)) (h : ∀ a ∈ as, a.IsFinite) (x : K) :
    ∃ y, Scalar.maxFrom (finite x) as = finite y ∧ x ≤ y ∧ (∀ a ∈ as, a ≤ finite y) ∧
      (y = x ∨ finite y ∈ as) := by
  induction as generalizing x with
  | nil => exact ⟨x, rfl, le_rfl, by simp, .inl rfl⟩
  | cons a as ih =>
      rw [List.forall_mem_cons] at h
      obtain ⟨z, rfl⟩ := h.1
      obtain ⟨y, hmax, hle, hall, hmem⟩ := ih h.2 (max x z)
      refine ⟨y, ?_, le_trans (le_max_left x z) hle, ?_, ?_⟩
      · rw [Scalar.maxFrom, List.foldl_cons, max_finite]
        exact hmax
      · rw [List.forall_mem_cons]
        exact ⟨le_finite.2 (le_trans (le_max_right x z) hle), hall⟩
      · rcases hmem with rfl | hmem
        · rcases max_choice x z with heq | heq
          · exact .inl heq
          · exact .inr (by rw [heq]; exact List.mem_cons_self)
        · exact .inr (List.mem_cons_of_mem _ hmem)

/-- The mean of finite quantities above zero is one, if there are any. -/
theorem exists_mean_pos [IsStrictOrderedRing K] {as : List (Exact K)}
    (h : ∀ a ∈ as, ∃ x, a = finite x ∧ 0 < x) (hne : as ≠ []) :
    ∃ y, Scalar.mean as = finite y ∧ 0 < y := by
  obtain ⟨xs, rfl⟩ := exists_map_finite fun a ha => (h a ha).imp fun _ hx => hx.1
  have hpos : ∀ x ∈ xs, 0 < x := by
    intro x hx
    obtain ⟨y, hy, hpos⟩ := h (finite x) (List.mem_map_of_mem hx)
    rwa [Exact.finite.inj hy]
  have hxs : xs ≠ [] := fun hnil => hne (List.map_eq_nil_iff.2 hnil)
  have hlength : (0 : K) < xs.length := Nat.cast_pos.2 (List.length_pos_iff.2 hxs)
  refine ⟨xs.sum / xs.length, ?_, div_pos (List.sum_pos xs hpos hxs) hlength⟩
  rw [Scalar.mean, sum_map_finite, ofNat_eq, List.length_map, div_finite hlength.ne']

/-- The largest of finite quantities above zero is one, if there are any. -/
theorem exists_maxFrom_pos {as : List (Exact K)} (h : ∀ a ∈ as, ∃ x, a = finite x ∧ 0 < x)
    (hne : as ≠ []) : ∃ y, Scalar.maxFrom 0 as = finite y ∧ 0 < y := by
  obtain ⟨y, hmax, -, hall, -⟩ :=
    maxFrom_finite as (fun a ha => (h a ha).imp fun _ hx => hx.1) 0
  obtain ⟨a, ha⟩ := List.exists_mem_of_ne_nil _ hne
  obtain ⟨x, rfl, hx⟩ := h a ha
  exact ⟨y, by rw [zero_eq, hmax], hx.trans_le (le_finite.1 (hall _ ha))⟩

end Laws

namespace WithoutExponentials

/-- Where no exponential is computed, any functions will do. -/
scoped instance : Exponentials ℚ where
  exp x := x
  pow x _ := x

end WithoutExponentials

end Exact

end WattPlan
