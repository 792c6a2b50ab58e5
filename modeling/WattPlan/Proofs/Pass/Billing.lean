import WattPlan.Proofs.Pass.Completion
import WattPlan.Proofs.Pass.Timing
import WattPlan.Proofs.Tariff.Found

/-!
# Exact costs in a pass

Over exact quantities a tariff with finite prices gives a finite cost to every finite interval
(`Tariff.energyCost_finite`). All times of a pass are finite, so every placement has a finite cost
(`Pass.Reached.cost_finite`), and so has the solution (`Pass.Solves.cost_finite`).
-/

namespace WattPlan

open Exact

variable {K : Type} [Field K] [LinearOrder K] [IsStrictOrderedRing K] [FloorRing K]
  [Exponentials K]

namespace Tariff

variable {tariff : Tariff (Exact K)} {start stop power t total : Exact K}

omit [IsStrictOrderedRing K] in
/-- The price at any instant is one of the prices of the tariff. -/
theorem priceAt_finite (hprices : ∀ price ∈ tariff.hourly, price.IsFinite) :
    (tariff.priceAt t).IsFinite :=
  hprices _ (List.get_mem _ _)

omit [IsStrictOrderedRing K] in
/-- The length of an hour is finite. -/
theorem hourLength_finite : (hourLength : Exact K).IsFinite :=
  IsFinite.ofNat 3600

/-- The end of the hour of a finite instant is finite. -/
theorem hourEnd_finite (ht : t.IsFinite) : (hourEnd t).IsFinite :=
  ((ht.div_ofNat (by decide : 0 < 3600)).floor.add (IsFinite.ofNat 1)).mul
    hourLength_finite

/-- Walking over hours of finite prices keeps a total finite. -/
theorem Walks.finite (hprices : ∀ price ∈ tariff.hourly, price.IsFinite) (hstop : stop.IsFinite)
    {result : Exact K} (h : tariff.Walks stop t total result) (ht : t.IsFinite)
    (htotal : total.IsFinite) : result.IsFinite := by
  induction h with
  | done => exact htotal
  | hour t total result _ _ ih =>
      have hnext := (hourEnd_finite ht).min hstop
      exact ih hnext (htotal.add ((hnext.sub ht).mul (priceAt_finite hprices)))

/-- The walk over a finite interval sets out from a finite instant, with a finite total. -/
theorem afterCycles_finite (hprices : ∀ price ∈ tariff.hourly, price.IsFinite)
    (hstart : start.IsFinite) (hstop : stop.IsFinite) :
    (tariff.afterCycles start stop).1.IsFinite ∧ (tariff.afterCycles start stop).2.IsFinite := by
  have hcycle : (hourLength * Scalar.ofNat tariff.hourly.length : Exact K) =
      Scalar.ofNat (3600 * tariff.hourly.length) :=
    congrArg Exact.finite (Nat.cast_mul 3600 tariff.hourly.length).symm
  have hcycles := ((hstop.sub hstart).div_ofNat
    (Nat.mul_pos (by decide : 0 < 3600) tariff.length_pos)).floor
  unfold afterCycles
  rw [hcycle]
  dsimp only
  split
  · exact ⟨hstart.add (hcycles.mul (IsFinite.ofNat _)), IsFinite.add ⟨0, zero_eq⟩
      ((hcycles.mul (IsFinite.sum hprices)).mul hourLength_finite)⟩
  · exact ⟨hstart, 0, zero_eq⟩

/-- The integral of finite prices over a finite interval is found and finite. -/
theorem priceSeconds_finite (hprices : ∀ price ∈ tariff.hourly, price.IsFinite)
    (hstart : start.IsFinite) (hstop : stop.IsFinite) :
    (tariff.priceSeconds start stop).IsFinite := by
  obtain ⟨result, hresult⟩ := Option.isSome_iff_exists.1 (tariff.priceSeconds?_isSome start stop)
  rw [priceSeconds, hresult, Option.getD_some]
  by_cases hlt : start < stop
  · rw [tariff.priceSeconds?_of_lt hlt (isFinite_iff.2 hstop)] at hresult
    obtain ⟨hentry, htotal⟩ := afterCycles_finite hprices hstart hstop
    exact (walks_of_integrateHours? hresult).finite hprices hstop hentry htotal
  · rw [priceSeconds?, if_pos hlt] at hresult
    exact ⟨0, (Option.some.inj hresult).symm.trans zero_eq⟩

/-- Drawing a finite power over a finite interval has a finite cost. -/
theorem energyCost_finite (hprices : ∀ price ∈ tariff.hourly, price.IsFinite)
    (hstart : start.IsFinite) (hstop : stop.IsFinite) (hpower : power.IsFinite) :
    (tariff.energyCost start stop power).IsFinite := by
  unfold energyCost
  split
  · exact ⟨0, zero_eq⟩
  · exact (hpower.mul (priceSeconds_finite hprices hstart hstop)).div_ofNat
      (by decide : 0 < 3600000)

end Tariff

section Costs

variable {catalog : Catalog (Exact K)} {node : Node (Exact K)} {level : PowerLevel (Exact K)}

omit [IsStrictOrderedRing K] in
/-- The prices at the site of a node are finite. -/
theorem Catalog.Drafted.price_finite (h : catalog.Drafted) (hnode : node ∈ catalog.nodes) :
    ∀ price ∈ node.site.tariff.hourly, price.IsFinite := by
  intro price hprice
  obtain ⟨x, hx, -⟩ := isAmount_iff.1 (h.price hnode price hprice)
  exact ⟨x, hx⟩

omit [IsStrictOrderedRing K] in
/-- The power of a level of a node is finite. -/
theorem Catalog.Drafted.power_finite (h : catalog.Drafted) (hnode : node ∈ catalog.nodes)
    (hlevel : level ∈ node.levels) : level.power.IsFinite := by
  have hfault := h.level hnode hlevel
  unfold PowerLevel.fault? at hfault
  split at hfault
  · cases hfault
  · split at hfault
    · cases hfault
    · rename_i hpower
      exact isFinite_iff.1 (not_not.1 hpower).1

end Costs

namespace Pass

variable {problem : Problem (Exact K)} {pass : Pass (Exact K)} {timelines : Timelines (Exact K)}
  {job : Job (Exact K)} {request : Request (Exact K)} {candidate : Candidate (Exact K)}

omit [IsStrictOrderedRing K] in
/-- The outputs of the parents of a job are there at finite times. -/
theorem Asks.arrival_finite (hasks : pass.Asks problem job request) (hpass : pass.Timed) :
    ∀ arrival ∈ request.arrivals, arrival.finish.IsFinite := by
  intro arrival harrival
  obtain ⟨parent, -, hparent⟩ := forall₂_exists_left hasks.arrivals_from harrival
  obtain ⟨placement, writer, hplacement, -, rfl⟩ := arrivalFrom_eq_ok hparent
  exact hpass.finishes placement (placement?_eq_some hplacement).1

omit [IsStrictOrderedRing K] in
/-- The staging of a job is counted from a finite time. -/
theorem Asks.begin_finite (hasks : pass.Asks problem job request) (htimed : problem.Timed)
    (hpass : pass.Timed) : request.begin.IsFinite := by
  rw [hasks.begin_eq]
  unfold beginOf
  split
  · exact htimed.submitted
  · rename_i hne
    refine IsFinite.minFrom ?_ (by simpa using hne)
    intro finish hfinish
    obtain ⟨arrival, harrival, rfl⟩ := List.mem_map.1 hfinish
    exact hasks.arrival_finite hpass arrival harrival

/-- The staging of a job on a node has a finite cost. -/
theorem Asks.stagingCost_finite (hasks : pass.Asks problem job request) (htimed : problem.Timed)
    (hpass : pass.Timed) (hjob : job ∈ problem.workflow.jobs) {node : Node (Exact K)}
    (hnode : node ∈ problem.catalog.nodes) {power ready : Exact K} (hpower : power.IsFinite)
    (hready : ready.IsFinite) : (request.stagingCost node power ready).IsFinite := by
  have hprices := htimed.catalog.price_finite hnode
  unfold Request.stagingCost
  dsimp only
  split
  · exact Tariff.energyCost_finite hprices (hasks.begin_finite htimed hpass) hready hpower
  · refine IsFinite.foldl_add ?_ ?_
    · rw [hasks.stagingTime_eq htimed hjob hnode]
      exact Tariff.energyCost_finite hprices
        (hready.sub (htimed.catalog.stagingTime_finite htimed.measured hjob node)) hready hpower
    · intro cost hcost
      obtain ⟨arrival, harrival, rfl⟩ := List.mem_map.1 hcost
      have hfinish := hasks.arrival_finite hpass arrival harrival
      obtain ⟨parent, -, hparent⟩ := forall₂_exists_left hasks.arrivals_from harrival
      obtain ⟨placement, writer, -, -, rfl⟩ := arrivalFrom_eq_ok hparent
      refine Tariff.energyCost_finite hprices hfinish (hfinish.add ?_) hpower
      rw [Request.transferTime, hasks.problem_eq]
      exact htimed.catalog.transferTime_finite (htimed.measured.dataFrom_finite hjob) _ _

/-- An offered candidate has a finite cost. -/
theorem Asks.cost_finite (hasks : pass.Asks problem job request)
    (htimelines : request.timelines = pass.timelines) (htimed : problem.Timed) (hpass : pass.Timed)
    (hjob : job ∈ problem.workflow.jobs) (hoffers : request.Offers candidate) :
    candidate.cost.IsFinite := by
  obtain ⟨r, s, d, hready, hstart, hfinish, -⟩ :=
    hasks.times_of_offers htimelines htimed hpass hjob hoffers
  obtain ⟨node, hnode, level, hlevel, place, rfl⟩ := hasks.exists_evaluate hoffers
  have hpower := htimed.catalog.power_finite hnode hlevel
  exact (hasks.stagingCost_finite htimed hpass hjob hnode hpower ⟨r, hready⟩).add
    (Tariff.energyCost_finite (htimed.catalog.price_finite hnode) ⟨s, hstart⟩ ⟨s + d, hfinish⟩
      hpower)

/-- Every placement of a pass that is reached from sound timelines has a finite cost. -/
theorem Reached.cost_finite (h : Reached problem timelines pass) (htimed : problem.Timed)
    (hsound : ∀ node, (timelines.ofNode node).Sound) :
    ∀ placement ∈ pass.placed, placement.cost.IsFinite := by
  refine h.preserves (P := fun pass => ∀ placement ∈ pass.placed, placement.cost.IsFinite)
    (by simp [Pass.start]) ?_
  intro pass job request candidate hreached ih hjob _ hrequest hoffers placement hplacement
  obtain ⟨hasks, htimelines⟩ := asks_of_request hrequest
  rcases List.mem_append.1 hplacement with hplacement | hplacement
  · exact ih placement hplacement
  · rw [List.mem_singleton.1 hplacement]
    exact hasks.cost_finite htimelines htimed (hreached.timed htimed hsound) hjob hoffers

/-- A solution from sound timelines has a finite cost. -/
theorem Solves.cost_finite {solution : Solution (Exact K)}
    (h : Solves problem timelines solution) (htimed : problem.Timed)
    (hsound : ∀ node, (timelines.ofNode node).Sound) : solution.cost.IsFinite := by
  obtain ⟨pass, placements, hreached, -, rfl⟩ := h.exists_pass
  have hcost : pass.cost = (pass.placed.map fun placement => placement.cost).foldl (· + ·) 0 :=
    List.foldl_map.symm
  show pass.cost.IsFinite
  rw [hcost]
  refine IsFinite.foldl_add ⟨0, zero_eq⟩ fun cost hcost => ?_
  obtain ⟨placement, hplacement, rfl⟩ := List.mem_map.1 hcost
  exact hreached.cost_finite htimed hsound placement hplacement

end Pass

end WattPlan
