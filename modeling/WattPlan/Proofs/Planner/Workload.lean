import WattPlan.Proofs.Pass.Makespan
import WattPlan.Proofs.Pass.Reliability
import WattPlan.Proofs.Pass.Sweeps
import WattPlan.Proofs.Planner.Consistency

/-!
# Deadlines that leave time for the workload

A planner that has time for the whole workload of a workflow after everything that is planned so far
finds a plan for it, if the reliability goal asks for nothing or the nodes never fail: then every
attempt of its search meets both (`Consistent.finishTime_le`, `goal_le_reliability`).
`workload_bounds` states this together with the bound on the finish of a pass.
-/

namespace WattPlan

open Exact

namespace Planner

variable {K : Type} [Field K] [LinearOrder K] [IsStrictOrderedRing K] [FloorRing K]
  [Exponentials K] {planner : Planner (Exact K)} {plans : List (Plan (Exact K))}
  {workflow : Workflow (Exact K)} {metrics : Metrics (Exact K)} {solution : Solution (Exact K)}

/-- A pass reaches a goal that asks for nothing, or for no more than certainty on nodes that never
fail, if the exponential function is nowhere negative and 1 at 0. -/
theorem goal_le_reliability (hcatalog : planner.catalog.Drafted) (hworkflow : workflow.Drafted)
    (hsolves : Pass.Solves (planner.problemOf workflow metrics) planner.timelines solution)
    (hexp : ∀ x : K, 0 ≤ Exponentials.exp x) (hone : Exponentials.exp (0 : K) = 1)
    (hgoal : planner.goalOf workflow metrics ≤ 0 ∨
      (∀ node ∈ planner.catalog.nodes, ∀ level ∈ node.levels, level.failureRate = 0) ∧
        planner.goalOf workflow metrics ≤ 1) :
    planner.goalOf workflow metrics ≤ solution.reliability := by
  rcases hgoal with hgoal | ⟨hrates, hgoal⟩
  · obtain ⟨x, hx, hpos⟩ := hsolves.reliability_of_levels (P := fun x => 0 ≤ x) zero_le_one
      (fun x y hx hy => mul_nonneg hx hy) fun node hnode level hlevel job hjob => by
        obtain ⟨rate, time, -, -, hlevel⟩ :=
          hcatalog.reliability_eq hworkflow.measured hjob hnode hlevel
        exact ⟨_, hlevel, hexp _⟩
    rw [hx]
    exact Exact.le_trans hgoal (by rwa [zero_eq, le_finite])
  · obtain ⟨x, hx, rfl⟩ := hsolves.reliability_of_levels (P := fun x => x = 1) rfl
      (fun x y hx hy => by rw [hx, hy, mul_one]) fun node hnode level hlevel job hjob => by
        obtain ⟨rate, time, hrate, -, hreliability⟩ :=
          hcatalog.reliability_eq hworkflow.measured hjob hnode hlevel
        rw [hrates node hnode level hlevel, zero_eq] at hrate
        obtain rfl := Exact.finite.inj hrate
        exact ⟨_, hreliability, by rw [neg_zero, zero_mul, hone]⟩
    rw [hx, ← one_eq]
    exact hgoal

/-- Where the deadline leaves time for the workload, a pass meets it. -/
theorem Consistent.finishTime_le (h : Consistent plans planner) (hcatalog : planner.catalog.Drafted)
    (hworkflow : workflow.Submitted) (hfits : metrics.Fits workflow planner.catalog)
    (hdeadline : (planner.deadlinesOf workflow metrics).base + planner.catalog.workload workflow ≤
      (planner.deadlinesOf workflow metrics).deadline)
    (hsolves : Pass.Solves (planner.problemOf workflow metrics) planner.timelines solution) :
    solution.finishTime ≤ (planner.deadlinesOf workflow metrics).deadline := by
  obtain ⟨g, hg, hpos, hwindows, -⟩ := h.finish
  obtain ⟨x, hx⟩ := hworkflow.2
  have hbase : (planner.deadlinesOf workflow metrics).base = finite (max g x) := by
    show Scalar.max planner.globalFinishTime workflow.submittedAt = _
    rw [hg, hx, max_finite]
  rw [hbase] at hdeadline
  refine Exact.le_trans (hsolves.finishTime_le (problemOf_timed hcatalog hworkflow hfits)
    (hpos.trans (le_max_left g x)) ?_ fun node window hwindow => ?_) hdeadline
  · show workflow.submittedAt ≤ _
    rw [hx, le_finite]
    exact le_max_right g x
  · exact Exact.le_trans (hwindows window (Timelines.mem_windows_of_mem_ofNode hwindow))
      (le_finite.2 (le_max_left g x))

/-- A pass over any order of all jobs finishes, at the latest, the workload after the submission and
the windows that were there. A planner with a deadline that leaves time for the workload after the
base finds a plan for every workflow with jobs whose goal asks for nothing, or for no more than
certainty on nodes that never fail. -/
theorem workload_bounds :
    (∀ (problem : Problem (Exact K)) (timelines : Timelines (Exact K)) (order : List JobId)
      (generator : Generator) (latest : K) (averaging : TransferAveraging) (speed : SpeedReference),
      problem.catalog.Drafted → problem.workflow.Submitted →
      Metrics.ofWorkflow problem.workflow problem.catalog averaging speed = .ok problem.metrics →
      order.Perm problem.workflow.jobIds → 0 ≤ latest →
      problem.workflow.submittedAt ≤ finite latest →
      (∀ node, ∀ window ∈ (timelines.ofNode node).windows, window.finish ≤ finite latest) →
      ∃ solution following,
        (Pass.run problem timelines order).run generator = (.ok solution, following) ∧
        solution.finishTime ≤ finite latest + problem.catalog.workload problem.workflow) ∧
    ∀ (catalog : Catalog (Exact K)) (settings : Settings (Exact K)) (plans : List (Plan (Exact K)))
      (planner : Planner (Exact K)) (workflow : Workflow (Exact K)) (metrics : Metrics (Exact K)),
      catalog.Drafted → History catalog settings Workflow.Submitted plans planner →
      workflow.Submitted → workflow.jobs ≠ [] → planner.metricsOf workflow = .ok metrics →
      (planner.deadlinesOf workflow metrics).base + catalog.workload workflow ≤
        (planner.deadlinesOf workflow metrics).deadline →
      (∀ x : K, 0 ≤ Exponentials.exp x) → Exponentials.exp (0 : K) = 1 →
      (planner.goalOf workflow metrics ≤ 0 ∨
        (∀ node ∈ catalog.nodes, ∀ level ∈ node.levels, level.failureRate = 0) ∧
          planner.goalOf workflow metrics ≤ 1) →
      ∃ plan, (planner.plan workflow).result = .ok plan := by
  constructor
  · intro problem timelines order generator latest averaging speed hcatalog hworkflow hmetrics horder
      hlatest hsubmitted hwindows
    have harranged := hworkflow.1.arranged
    obtain ⟨solution, following, hrun⟩ := Pass.run_ok harranged timelines horder generator
    exact ⟨solution, following, hrun, (Pass.solves_of_run harranged hrun).finishTime_le
      ⟨hcatalog, harranged, hworkflow.1.measured, Metrics.fits_of_ofWorkflow harranged hmetrics,
        hworkflow.2⟩ hlatest hsubmitted hwindows⟩
  · intro catalog settings plans planner workflow metrics hcatalog hhistory hworkflow hne hmetrics
      hdeadline hexp hone hgoal
    have hconsistent := hhistory.consistent hcatalog
    obtain ⟨rfl, -⟩ := hhistory.setup
    obtain ⟨other, attempts, generator, hother, hfits, hattempts, hsolves, hfail | hcommit⟩ :=
      plan_of_arranged hworkflow.1.arranged hne planner
    · obtain rfl := Except.ok.inj (hmetrics.symm.trans hother)
      -- No attempt can have failed, and there is one.
      obtain ⟨attempt, hattempt⟩ := List.exists_mem_of_ne_nil _ hattempts.choose_spec.ne_nil
      have hsolved := (hsolves attempt hattempt).2
      exact absurd ⟨hconsistent.finishTime_le hcatalog hworkflow hfits hdeadline hsolved,
        goal_le_reliability hcatalog hworkflow.1 hsolved hexp hone hgoal⟩
        (hfail.2 attempt hattempt)
    · obtain ⟨attempt, -, -, progress, hplan⟩ := hcommit
      exact ⟨_, congrArg Outcome.result hplan⟩

end Planner

namespace Fork

theorem workflow_submitted : workflow.Submitted :=
  ⟨workflow_drafted, 5, rfl⟩

/-- The deadline of the fork leaves time for its workload, and its nodes never fail. -/
theorem planned_in_time : catalog.Drafted ∧ workflow.Submitted ∧
    ∃ metrics, planner.metricsOf workflow = .ok metrics ∧
    (∃ solution following,
      (Pass.run (planner.problemOf workflow metrics) planner.timelines [2, 1, 0]).run
        planner.generator = (.ok solution, following) ∧
      solution.finishTime ≤ finite 5 + catalog.workload workflow) ∧
    (planner.deadlinesOf workflow metrics).base + catalog.workload workflow ≤
      (planner.deadlinesOf workflow metrics).deadline ∧
    ∃ plan, (planner.plan workflow).result = .ok plan := by
  obtain ⟨metrics, hmetrics, -⟩ := Metrics.ofWorkflow_eq_ok workflow_drafted.arranged catalog
    .siteAggregated .mean
  have hleaves : ((planner.metricsOf workflow).toOption.all fun metrics =>
      decide ((planner.deadlinesOf workflow metrics).base + catalog.workload workflow ≤
        (planner.deadlinesOf workflow metrics).deadline)) = true := by
    decide +kernel
  have hmetricsOf : planner.metricsOf workflow = .ok metrics := hmetrics
  rw [hmetricsOf] at hleaves
  have hdeadline := of_decide_eq_true hleaves
  have hidle : ∀ node, ∀ window ∈ (planner.timelines.ofNode node).windows,
      window.finish ≤ finite 5 := by
    intro node window hwindow
    have hnone : planner.timelines.ofNode node = Timeline.idle := Timelines.ofNode_idle _ node
    rw [hnone] at hwindow
    cases hwindow
  have horder : [2, 1, 0].Perm workflow.jobIds := by decide
  have hgoal : (finite 1 : Exact ℚ) ≤ 1 := by decide
  obtain ⟨hpass, hplan⟩ := Planner.workload_bounds (K := ℚ)
  exact ⟨catalog_drafted, workflow_submitted, metrics, hmetricsOf,
    hpass (planner.problemOf workflow metrics) planner.timelines [2, 1, 0] planner.generator 5
      .siteAggregated .mean catalog_drafted workflow_submitted hmetrics horder (by norm_num)
      (le_refl (5 : ℚ)) hidle,
    hdeadline,
    hplan catalog settings [] planner workflow metrics catalog_drafted (.start planner.generator)
      workflow_submitted (by simp [workflow]) hmetricsOf hdeadline (fun x => le_max_left 0 (1 + x))
      (by norm_num [Exponentials.exp]) (.inr ⟨by simp [catalog, Node.levels, zero_eq], hgoal⟩)⟩

end Fork

end WattPlan
