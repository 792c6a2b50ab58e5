import WattPlan.Metrics
import WattPlan.Proofs.Catalog.WellFormed
import WattPlan.Proofs.Exact

/-!
# What a catalog is divided by

Lengths are divided by the speeds of levels, by the reference speeds of a catalog and by the mean
speeds of its sites, and sums over nodes or pairs of nodes by their numbers. In a well-formed catalog
all of these are above zero (`Catalog.WellFormed.divisible`), as far as the quantities keep means
above zero. Exact quantities always do.
-/

namespace WattPlan

/-- Quantities in which the numbers up to a bound are above zero, and so are the mean and the maximum
of up to as many finite quantities that are. -/
structure Scalar.KeepsPositive (α : Type) [Scalar α] (bound : Nat) : Prop where
  count_pos : ∀ n, 0 < n → n ≤ bound → 0 < (Scalar.ofNat n : α)
  pairs_pos : ∀ n, 0 < n → n ≤ bound → 0 < (Scalar.ofNat n * Scalar.ofNat n : α)
  mean_pos : ∀ xs : List α, xs ≠ [] → xs.length ≤ bound →
    (∀ x ∈ xs, Scalar.isFinite x = true ∧ 0 < x) → 0 < Scalar.mean xs
  max_pos : ∀ xs : List α, xs ≠ [] →
    (∀ x ∈ xs, Scalar.isFinite x = true ∧ 0 < x) → 0 < Scalar.maxFrom 0 xs

namespace Catalog

variable {α : Type} [Scalar α] {catalog : Catalog α}

/-- A catalog of which everything that is divided by is above zero: the speeds of levels, the
reference speeds and the mean speeds of the sites, and the numbers of nodes, pairs of nodes and nodes
of a site. -/
structure Divisible (catalog : Catalog α) : Prop where
  level_pos : ∀ node ∈ catalog.nodes, ∀ level ∈ node.levels, 0 < level.speed
  referenceSpeed_pos : ∀ speed : SpeedReference, 0 < catalog.referenceSpeed speed
  count_pos : 0 < (Scalar.ofNat catalog.nodes.length : α)
  pairs_pos : 0 < (Scalar.ofNat catalog.nodes.length * Scalar.ofNat catalog.nodes.length : α)
  siteSpeed_pos : ∀ site ∈ catalog.populatedSites,
    0 < Scalar.mean ((catalog.nodesAt site.id).map fun node => node.fastest.speed)
  siteCount_pos : ∀ site ∈ catalog.populatedSites,
    0 < (Scalar.ofNat (catalog.nodesAt site.id).length : α)

/-- In a well-formed catalog all that is divided by is above zero. -/
theorem WellFormed.divisible (h : catalog.WellFormed)
    (hpositive : Scalar.KeepsPositive α catalog.nodes.length) : catalog.Divisible := by
  -- A group of nodes of the catalog with at least one member has a positive number and mean.
  have hgroup : ∀ nodes : List (Node α), nodes ≠ [] → nodes.Sublist catalog.nodes →
      0 < (Scalar.ofNat nodes.length : α) ∧
        0 < Scalar.mean (nodes.map fun node => node.fastest.speed) := by
    intro nodes hne hsub
    refine ⟨hpositive.count_pos _ (List.length_pos_iff.2 hne) hsub.length_le,
      hpositive.mean_pos _ (by simpa using hne) (by simpa using hsub.length_le) ?_⟩
    intro speed hspeed
    obtain ⟨node, hnode, rfl⟩ := List.mem_map.1 hspeed
    have hvalid := h.level_valid (hsub.subset hnode) node.fastest List.mem_cons_self
    exact ⟨hvalid.finite_speed, hvalid.speed_pos⟩
  have hsite : ∀ site ∈ catalog.populatedSites, catalog.nodesAt site.id ≠ [] := by
    intro site hsite
    simpa using (List.mem_filter.1 hsite).2
  obtain ⟨hcount, hmean⟩ := hgroup catalog.nodes catalog.nonempty (List.Sublist.refl _)
  constructor
  case level_pos => exact fun node hnode level hlevel => (h.level_valid hnode level hlevel).speed_pos
  case referenceSpeed_pos =>
    intro speed
    cases speed with
    | mean => exact hmean
    | fastest =>
        refine hpositive.max_pos _ (by simpa using catalog.nonempty) fun speed hspeed => ?_
        obtain ⟨node, hnode, rfl⟩ := List.mem_map.1 hspeed
        have hvalid := h.level_valid hnode node.fastest List.mem_cons_self
        exact ⟨hvalid.finite_speed, hvalid.speed_pos⟩
  case count_pos => exact hcount
  case pairs_pos => exact hpositive.pairs_pos _ (List.length_pos_iff.2 catalog.nonempty) le_rfl
  case siteSpeed_pos =>
    exact fun site hmem => (hgroup _ (hsite site hmem) List.filter_sublist).2
  case siteCount_pos =>
    exact fun site hmem => (hgroup _ (hsite site hmem) List.filter_sublist).1

end Catalog

namespace Exact

variable {K : Type} [Field K] [LinearOrder K] [FloorRing K] [Exponentials K]

/-- A finite quantity above zero is a number above zero. -/
theorem exists_of_pos {a : Exact K} (h : Scalar.isFinite a = true ∧ 0 < a) :
    ∃ x, a = finite x ∧ 0 < x := by
  obtain ⟨x, rfl⟩ := isFinite_iff.1 h.1
  exact ⟨x, rfl, lt_finite.1 (zero_eq (K := K) ▸ h.2)⟩

/-- Means and maxima of exact quantities above zero are above zero. -/
theorem keepsPositive [IsStrictOrderedRing K] (bound : Nat) :
    Scalar.KeepsPositive (Exact K) bound where
  count_pos := by
    intro n hn _
    rw [zero_eq, ofNat_eq]
    exact lt_finite.2 (Nat.cast_pos.2 hn)
  pairs_pos := by
    intro n hn _
    rw [zero_eq, ofNat_eq, mul_finite]
    exact lt_finite.2 (mul_pos (Nat.cast_pos.2 hn) (Nat.cast_pos.2 hn))
  mean_pos := by
    intro xs hne _ hpos
    obtain ⟨y, hmean, hy⟩ := exists_mean_pos (fun x hx => exists_of_pos (hpos x hx)) hne
    rw [hmean, zero_eq]
    exact lt_finite.2 hy
  max_pos := by
    intro xs hne hpos
    obtain ⟨y, hmax, hy⟩ := exists_maxFrom_pos (fun x hx => exists_of_pos (hpos x hx)) hne
    rw [hmax, zero_eq]
    exact lt_finite.2 hy

end Exact

end WattPlan
