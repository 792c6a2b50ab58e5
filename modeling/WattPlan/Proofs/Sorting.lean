import Mathlib.Data.List.Basic
import Mathlib.Order.Defs.LinearOrder
import WattPlan.Scalar.Binary64

/-!
# Sorting by a comparison

A comparison that is a total order sorts a list: no member comes before one that it is behind
(`pairwise_mergeSort_isLE`). The places of two members of a sorted list tell how they compare
(`idxOf_lt_of_pairwise`). Where any two quantities are compared in a total order, things are so by a
quantity of theirs (`transCmp_quantity`), also with numbers that decide where it is equal
(`transCmp_then_number`).
-/

namespace WattPlan

/-- Floats are compared by a total order. -/
instance Binary64.transCmp_totalOrder :
    Std.TransCmp (Scalar.totalOrder : Float → Float → Ordering) :=
  inferInstanceAs (Std.TransCmp (compareOn totalOrderKey))

variable {β : Type}

/-- A total order stays one where numbers decide between equal things. -/
theorem transCmp_then_number {cmp : β → β → Ordering} (h : Std.TransCmp cmp) (number : β → Nat) :
    Std.TransCmp fun a b => (cmp a b).then (compare (number a) (number b)) :=
  inferInstanceAs (Std.TransCmp (compareLex cmp (compareOn number)))

section Quantities

variable {α : Type} [Scalar α] [Std.TransCmp (Scalar.totalOrder : α → α → Ordering)]

/-- Things are compared by a quantity of theirs in a total order. -/
theorem transCmp_quantity (quantity : β → α) :
    Std.TransCmp fun a b => Scalar.totalOrder (quantity a) (quantity b) where
  eq_swap := by
    intro a b
    exact Std.OrientedCmp.eq_swap
  isLE_trans := by
    intro a b c hab hbc
    exact Std.TransCmp.isLE_trans hab hbc

/-- Things are compared by a quantity of theirs in a total order, the larger one first. -/
theorem transCmp_falling (quantity : β → α) :
    Std.TransCmp fun a b => Scalar.totalOrder (quantity b) (quantity a) := by
  have hrising := transCmp_quantity quantity
  exact Std.TransCmp.opposite

end Quantities

/-- A list that is sorted by a comparison has no member before one that it is behind. -/
theorem pairwise_mergeSort_isLE {cmp : β → β → Ordering} [Std.TransCmp cmp] (xs : List β) :
    (xs.mergeSort fun a b => (cmp a b).isLE).Pairwise fun a b => (cmp a b).isLE = true := by
  refine List.pairwise_mergeSort (fun a b c => Std.TransCmp.isLE_trans) (fun a b => ?_) xs
  have hswap : cmp b a = (cmp a b).swap := Std.OrientedCmp.eq_swap
  rw [hswap]
  cases cmp a b <;> rfl

/-- Of two members of a list in which earlier ones are related to later ones, one that the other is
not related to comes first. -/
theorem idxOf_lt_of_pairwise [DecidableEq β] {R : β → β → Prop} {xs : List β} {x y : β}
    (h : xs.Pairwise R) (hx : x ∈ xs) (hy : y ∈ xs) (hne : x ≠ y) (hnot : ¬ R y x) :
    xs.idxOf x < xs.idxOf y := by
  refine Nat.lt_of_not_le fun hle => hnot ?_
  have hplaces : xs.idxOf y < xs.idxOf x := by
    refine Nat.lt_of_le_of_ne hle fun heq => hne ?_
    exact (List.idxOf_inj hx).1 heq.symm
  have hrelated := List.pairwise_iff_getElem.1 h _ _ (List.idxOf_lt_length_of_mem hy)
    (List.idxOf_lt_length_of_mem hx) hplaces
  rwa [List.getElem_idxOf, List.getElem_idxOf] at hrelated

end WattPlan
