import Mathlib.Algebra.BigOperators.Ring.List
import Mathlib.Algebra.Order.BigOperators.Group.List
import Mathlib.Data.List.Nodup
import Mathlib.Tactic.LinearCombination
import WattPlan.Metrics
import WattPlan.Proofs.Catalog.Draft
import WattPlan.Proofs.Exact

/-!
# Mean transfer times

Between two nodes of a drafted catalog data takes a time in proportion to its size, and so it does
on average over all pairs of nodes. The two ways of averaging come to one rate
(`Catalog.Drafted.exists_pairRate`): the pairs of one site are counted by the squares of the numbers
of its nodes, less the pairs of a node with itself, and all others lie between sites.
-/

namespace WattPlan

open Exact

section Counting

variable {β K : Type} [CommRing K]

/-- A choice of two numbers by a condition adds up to one of them for each member that meets the
condition, and the other one for each of the rest. -/
theorem sum_map_choice (p : β → Prop) [DecidablePred p] (a b : K) (xs : List β) :
    (xs.map fun x => if p x then a else b).sum =
      (xs.filter fun x => p x).length * a + (xs.length - (xs.filter fun x => p x).length) * b := by
  have hlength := xs.length_eq_length_filter_add fun x => decide (p x)
  rw [List.sum_map_ite, hlength]
  simp only [List.map_const', List.sum_replicate, nsmul_eq_mul, Nat.cast_add, ← decide_not,
    add_sub_cancel_left]

/-- A function of a key adds up to the same over the members as over the keys, where each key counts
as often as there are members with it. -/
theorem sum_map_key (key : β → Nat) (f : Nat → K) {keys : List Nat} (hkeys : keys.Nodup)
    {xs : List β} (hmem : ∀ x ∈ xs, key x ∈ keys) :
    (xs.map fun x => f (key x)).sum =
      (keys.map fun k => ((xs.filter fun x => key x = k).length : K) * f k).sum := by
  induction xs with
  | nil => simp
  | cons x xs ih =>
      rw [List.forall_mem_cons] at hmem
      -- The new member counts for its own key and for no other one.
      have hstep : ∀ k, (((x :: xs).filter fun x => key x = k).length : K) * f k =
          (if k = key x then f k else 0) + ((xs.filter fun x => key x = k).length : K) * f k := by
        intro k
        by_cases h : key x = k
        · simp [h, add_mul, add_comm]
        · simp [h, Ne.symm h]
      simp only [hstep, List.sum_map_add, List.map_cons, List.sum_cons, ih hmem.2]
      rw [List.sum_map_ite_eq, List.count_eq_one_of_mem hkeys hmem.1]
      simp

end Counting

section Rates

variable {K : Type} [Field K] [LinearOrder K] [FloorRing K] [Exponentials K]
  {catalog : Catalog (Exact K)}

/-- The seconds that a byte takes from node to node, by the rates within and between sites. -/
def linkRate (intra inter : K) (source target : Node (Exact K)) : K :=
  if source.id = target.id then 0 else if source.site.id = target.site.id then intra else inter

/-- Members that are numbered by their places have the numbers below their count. -/
theorem map_eq_range {β : Type} {number : β → Nat} {xs : List β}
    (h : ∀ {place x}, xs[place]? = some x → number x = place) :
    xs.map number = List.range xs.length := by
  apply List.ext_getElem
  · simp
  · intro place hplace _
    rw [List.getElem_map, List.getElem_range]
    exact h (List.getElem?_eq_getElem (by simpa using hplace))

/-- The number of ordered pairs of nodes of one site, those of a node with itself included. -/
def Catalog.samePairs (catalog : Catalog (Exact K)) : K :=
  (catalog.sites.map fun site => ((catalog.nodesAt site.id).length : K) ^ 2).sum

namespace Catalog.Drafted

/-- No two nodes have the same number. -/
theorem nodup_nodeIds (h : catalog.Drafted) : (catalog.nodes.map Node.id).Nodup := by
  rw [map_eq_range h.node_id]
  exact List.nodup_range

/-- No two sites have the same number. -/
theorem nodup_siteIds (h : catalog.Drafted) : (catalog.sites.map Site.id).Nodup := by
  rw [map_eq_range h.site_id]
  exact List.nodup_range

/-- A finite amount of data takes a time in proportion to its size over each kind of link. -/
theorem exists_rates [IsStrictOrderedRing K] (h : catalog.Drafted) :
    ∃ intra inter : K, 0 ≤ intra ∧ 0 ≤ inter ∧
      (∀ x : K, finite x / catalog.network.intraSite = finite (x * intra)) ∧
      ∀ x : K, finite x / catalog.network.interSite = finite (x * inter) := by
  obtain ⟨⟨hintra, hintrapos⟩, hinter, hinterpos⟩ := h.bandwidths
  obtain ⟨intra, hnonneg, hdiv⟩ := exists_div_eq hintra hintrapos
  obtain ⟨inter, hnonneg', hdiv'⟩ := exists_div_eq hinter hinterpos
  exact ⟨intra, inter, hnonneg, hnonneg', hdiv, hdiv'⟩

/-- A finite amount of data takes a time in proportion to its size from node to node. -/
theorem transferTime_eq {intra inter : K}
    (hintra : ∀ x : K, finite x / catalog.network.intraSite = finite (x * intra))
    (hinter : ∀ x : K, finite x / catalog.network.interSite = finite (x * inter))
    (x : K) (source target : Node (Exact K)) :
    catalog.transferTime (finite x) source target =
      finite (x * linkRate intra inter source target) := by
  unfold Catalog.transferTime linkRate
  by_cases hnode : source.id = target.id
  · rw [if_pos (.inl hnode), if_pos hnode, mul_zero, zero_eq]
  · by_cases hx : x = 0
    · rw [if_pos (.inr (by rw [hx, zero_eq]; exact decide_eq_true rfl)), hx, zero_mul, zero_eq]
    · have hne : ¬ (finite x == (0 : Exact K)) = true := by
        rw [zero_eq]
        exact fun heq => hx (of_decide_eq_true heq)
      rw [if_neg (not_or.2 ⟨hnode, hne⟩), if_neg hnode]
      split
      · exact hintra x
      · exact hinter x

/-- The rates from a node to all nodes of a catalog: to the others of its site, and to all those of
other sites. -/
theorem sum_linkRate (h : catalog.Drafted) (intra inter : K) {source : Node (Exact K)}
    (hsource : source ∈ catalog.nodes) :
    (catalog.nodes.map (linkRate intra inter source)).sum =
      ((catalog.nodesAt source.site.id).length - 1) * intra +
        (catalog.nodes.length - (catalog.nodesAt source.site.id).length) * inter := by
  -- With the rate of its site for itself, the node would have that rate to all nodes of the site.
  have hchoice : ∀ target ∈ catalog.nodes,
      linkRate intra inter source target + (if target.id = source.id then intra else 0) =
        if target.site.id = source.site.id then intra else inter := by
    intro target htarget
    unfold linkRate
    by_cases hid : target.id = source.id
    · have hsame := Option.some.inj
        ((h.node?_id htarget).symm.trans (hid ▸ h.node?_id hsource))
      simp [hsame]
    · simp [hid, Ne.symm hid, eq_comm]
  have hself : (catalog.nodes.filter fun target => target.id = source.id).length = 1 := by
    have hcount := List.count_eq_one_of_mem h.nodup_nodeIds (List.mem_map_of_mem hsource)
    rwa [List.count, List.countP_map, List.countP_eq_length_filter] at hcount
  have hsum := congrArg List.sum (List.map_congr_left hchoice)
  rw [List.sum_map_add, sum_map_choice, sum_map_choice, hself] at hsum
  unfold nodesAt
  push_cast at hsum
  linear_combination hsum

/-- Each node stands at a site with as many nodes as there are pairs with it. -/
theorem sum_nodesAt (h : catalog.Drafted) :
    (catalog.nodes.map fun node => ((catalog.nodesAt node.site.id).length : K)).sum =
      catalog.samePairs := by
  have hmem : ∀ node ∈ catalog.nodes, node.site.id ∈ catalog.sites.map Site.id := fun node hnode =>
    List.mem_map_of_mem (List.mem_of_getElem? (h.node_site hnode))
  rw [sum_map_key (fun node : Node (Exact K) => node.site.id)
    (fun site => ((catalog.nodesAt site).length : K)) h.nodup_siteIds hmem]
  simp only [List.map_map, samePairs, Function.comp_def, sq]
  rfl

/-- The rates over all ordered pairs of nodes, regrouped by the kind of link. -/
theorem sum_linkRates (h : catalog.Drafted) (intra inter : K) :
    (catalog.nodes.map fun source => (catalog.nodes.map (linkRate intra inter source)).sum).sum =
      (catalog.samePairs - catalog.nodes.length) * intra +
        (catalog.nodes.length ^ 2 - catalog.samePairs) * inter := by
  have hrow : ∀ source ∈ catalog.nodes, (catalog.nodes.map (linkRate intra inter source)).sum =
      (catalog.nodesAt source.site.id).length * (intra - inter) +
        (catalog.nodes.length * inter - intra) := by
    intro source hsource
    rw [h.sum_linkRate intra inter hsource]
    ring
  rw [List.map_congr_left hrow, List.sum_map_add, List.sum_map_mul_right, h.sum_nodesAt,
    List.map_const', List.sum_replicate, nsmul_eq_mul]
  ring

/-- There are at least the pairs of a node with itself, and at most all pairs. -/
theorem samePairs_bounds [IsStrictOrderedRing K] (h : catalog.Drafted) :
    catalog.nodes.length ≤ catalog.samePairs ∧
      catalog.samePairs ≤ (catalog.nodes.length : K) ^ 2 := by
  rw [← h.sum_nodesAt]
  constructor
  · have hlow := List.card_nsmul_le_sum
      (catalog.nodes.map fun node => ((catalog.nodesAt node.site.id).length : K)) 1 ?_
    · simpa using hlow
    · simp only [List.forall_mem_map]
      intro node hnode
      have hmem := mem_nodesAt hnode
      exact_mod_cast List.length_pos_of_mem hmem
  · have hhigh := List.sum_le_card_nsmul
      (catalog.nodes.map fun node => ((catalog.nodesAt node.site.id).length : K))
      catalog.nodes.length ?_
    · simpa [sq] using hhigh
    · simp only [List.forall_mem_map]
      intro node _
      exact_mod_cast List.length_filter_le _ _

/-- All transfers of an amount of data between two nodes take a time in proportion to its size
together. -/
theorem sum_transferTimes (h : catalog.Drafted) {intra inter : K}
    (hintra : ∀ x : K, finite x / catalog.network.intraSite = finite (x * intra))
    (hinter : ∀ x : K, finite x / catalog.network.interSite = finite (x * inter)) (x : K) :
    (catalog.nodes.flatMap fun source => catalog.nodes.map fun target =>
      catalog.transferTime (finite x) source target).foldl (· + ·) 0 =
      finite (x * ((catalog.samePairs - catalog.nodes.length) * intra +
        (catalog.nodes.length ^ 2 - catalog.samePairs) * inter)) := by
  have htimes : (catalog.nodes.flatMap fun source => catalog.nodes.map fun target =>
      catalog.transferTime (finite x) source target) =
      (catalog.nodes.flatMap fun source => catalog.nodes.map fun target =>
        x * linkRate intra inter source target).map finite := by
    simp only [List.map_flatMap, List.map_map, Function.comp_def, transferTime_eq hintra hinter]
  rw [htimes, zero_eq, foldl_add_finite, zero_add, ← h.sum_linkRates]
  simp only [List.flatMap_def, List.sum_flatten, List.map_map, Function.comp_def,
    List.sum_map_mul_left]

/-- The pairs of nodes over one kind of link add a time in proportion to the size to a total. -/
theorem add_pairs [IsStrictOrderedRing K] {bandwidth : Exact K} {rate : K}
    (hrate : ∀ x : K, finite x / bandwidth = finite (x * rate)) {pairs : K} (hpairs : 0 ≤ pairs)
    (total x : K) :
    (if finite 0 < finite pairs then
      finite total + finite pairs * finite x / bandwidth else finite total) =
      finite (total + x * (pairs * rate)) := by
  rw [mul_finite, hrate, add_finite]
  split
  · congr 2
    ring
  · rename_i hnone
    obtain rfl := le_antisymm (not_lt.1 fun hlt => hnone (lt_finite.2 hlt)) hpairs
    simp

/-- All transfers of data between two nodes take a time in proportion to its size together, and both
ways of averaging share it out evenly to all pairs of nodes. -/
theorem exists_pairRate [IsStrictOrderedRing K] (h : catalog.Drafted) :
    ∃ rate : K, 0 ≤ rate ∧ ∀ x : K,
      (catalog.nodes.flatMap fun source => catalog.nodes.map fun target =>
        catalog.transferTime (finite x) source target).foldl (· + ·) 0 = finite (x * rate) ∧
      ∀ averaging, catalog.meanTransfer averaging (finite x) =
        finite (x * rate / catalog.nodes.length ^ 2) := by
  obtain ⟨intra, inter, hintra, hinter, hwithin, hbetween⟩ := h.exists_rates
  obtain ⟨hlow, hhigh⟩ := h.samePairs_bounds
  rw [← sub_nonneg] at hlow hhigh
  have hcount : (catalog.nodes.length : K) ^ 2 ≠ 0 :=
    pow_ne_zero 2 (Nat.cast_ne_zero.2 (List.length_pos_iff.2 catalog.nonempty).ne')
  have hall : (Scalar.ofNat catalog.nodes.length * Scalar.ofNat catalog.nodes.length : Exact K) =
      finite ((catalog.nodes.length : K) ^ 2) := by
    rw [ofNat_eq, mul_finite, sq]
  refine ⟨(catalog.samePairs - catalog.nodes.length) * intra +
    (catalog.nodes.length ^ 2 - catalog.samePairs) * inter, by positivity, fun x => ?_⟩
  have hpairs := h.sum_transferTimes hwithin hbetween x
  refine ⟨hpairs, fun averaging => ?_⟩
  unfold meanTransfer
  split
  · rename_i hnothing
    rw [zero_eq] at hnothing
    rw [of_decide_eq_true hnothing, zero_mul, zero_div, zero_eq]
  · dsimp only
    rw [hall, ← div_finite hcount]
    cases averaging with
    | nodePairs => exact congrArg (· / _) hpairs
    | siteAggregated =>
        have hsame : Scalar.sum (catalog.sites.map fun site =>
            (Scalar.ofNat (catalog.nodesAt site.id).length *
              Scalar.ofNat (catalog.nodesAt site.id).length : Exact K)) =
            finite catalog.samePairs := by
          rw [samePairs, ← sum_map_finite, List.map_map]
          simp only [Function.comp_def, ofNat_eq, mul_finite, sq]
        simp only [hsame]
        rw [ofNat_eq, sub_finite, sub_finite, zero_eq, add_pairs hwithin hlow,
          add_pairs hbetween hhigh]
        congr 2
        ring

end Catalog.Drafted

/-- Both ways of averaging give the time of all transfers between two nodes, shared out evenly to
all ordered pairs of nodes. -/
theorem Catalog.meanTransfer_averaging [IsStrictOrderedRing K] (h : catalog.Drafted)
    {data : Exact K} (hdata : Scalar.isAmount data = true) :
    ∃ mean : K, 0 ≤ mean ∧
      catalog.meanTransfer .nodePairs data = finite mean ∧
      catalog.meanTransfer .siteAggregated data = finite mean ∧
      (catalog.nodes.flatMap fun source => catalog.nodes.map fun target =>
        catalog.transferTime data source target).foldl (· + ·) 0 =
          finite (mean * catalog.nodes.length ^ 2) := by
  obtain ⟨x, rfl, hx⟩ := isAmount_iff.1 hdata
  obtain ⟨rate, hrate, hmean⟩ := h.exists_pairRate
  obtain ⟨hpairs, hboth⟩ := hmean x
  have hcount : (catalog.nodes.length : K) ^ 2 ≠ 0 :=
    pow_ne_zero 2 (Nat.cast_ne_zero.2 (List.length_pos_iff.2 catalog.nonempty).ne')
  refine ⟨x * rate / catalog.nodes.length ^ 2, by positivity, hboth _, hboth _, ?_⟩
  rw [hpairs, div_mul_cancel₀ _ hcount]

end Rates

/-!
## Three nodes

A catalog with two nodes at one site, one at another and none at a third one. Transfers between
sites take no time.
-/

namespace ThreeNodes

open WithoutExponentials

def west : Site (Exact ℚ) :=
  ⟨0, "west", ⟨[finite 1], List.cons_ne_nil _ _⟩⟩

def centre : Site (Exact ℚ) :=
  ⟨1, "centre", ⟨[finite 2], List.cons_ne_nil _ _⟩⟩

def east : Site (Exact ℚ) :=
  ⟨2, "east", ⟨[finite 3], List.cons_ne_nil _ _⟩⟩

def catalog : Catalog (Exact ℚ) where
  sites := [west, centre, east]
  nodes :=
    [⟨0, "first", west, ⟨finite 2, finite 50, finite 0⟩, []⟩,
      ⟨1, "other", east, ⟨finite 3, finite 60, finite 0⟩, []⟩,
      ⟨2, "second", west, ⟨finite 4, finite 70, finite 0⟩, []⟩]
  network := ⟨finite 5, infinity⟩
  nonempty := List.cons_ne_nil _ _

theorem catalog_drafted : catalog.Drafted := by
  refine ⟨_, ⟨finite 5, infinity⟩, finite 5, infinity, CatalogDraft.Drawn.empty.perform
    [.site "west" [finite 1], .site "centre" [finite 2], .site "east" [finite 3],
      .node "first" 0 [⟨finite 2, finite 50, finite 0⟩],
      .node "other" 2 [⟨finite 3, finite 60, finite 0⟩],
      .node "second" 0 [⟨finite 4, finite 70, finite 0⟩]], ?_, ?_⟩
  · with_unfolding_all rfl
  · with_unfolding_all rfl

/-- Of the nine pairs of nodes two lie at one site, and 15 bytes take 3 seconds between them. -/
theorem mean_of_pairs : catalog.Drafted ∧ Scalar.isAmount (finite 15 : Exact ℚ) = true ∧
    catalog.meanTransfer .nodePairs (finite 15) = finite (2 / 3) ∧
    catalog.meanTransfer .siteAggregated (finite 15) = finite (2 / 3) := by
  have hdata : Scalar.isAmount (finite 15 : Exact ℚ) = true := by decide +kernel
  obtain ⟨mean, -, hpairs, hsites, -⟩ := Catalog.meanTransfer_averaging catalog_drafted hdata
  have hvalue : catalog.meanTransfer .nodePairs (finite 15) = finite (2 / 3) := by decide +kernel
  rw [← hpairs, hvalue] at hsites
  exact ⟨catalog_drafted, hdata, hvalue, hsites⟩

end ThreeNodes

end WattPlan
