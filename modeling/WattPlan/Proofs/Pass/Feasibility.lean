import Mathlib
import WattPlan.Proofs.Deadline
import WattPlan.Proofs.LocalSearch.Attempts
import WattPlan.Proofs.Pass.Reliability
import WattPlan.Proofs.Pass.Sweeps
import WattPlan.Proofs.Placement.Feasible
import WattPlan.Proofs.Reliability

/-!
# From feasible candidates to a feasible pass

If the sites give a feasible candidate for every job, the pass is feasible. Each candidate keeps to
the sub-deadline of its job, and no sub-deadline lies behind the deadline (`Takes.finish_le`). The
sub-goal of the last job is the goal over the product of all reliabilities before it, so whatever
the earlier sub-goals were, a last candidate that keeps to it makes the pass reach the goal
(`Takes.goal_le_reliability`). `run_meets` puts the two together.
-/

namespace WattPlan

open Exact

/-- Only planning at random chooses a power level by chance. -/
theorem Variant.levelSearch_ne_random {variant : Variant} (h : variant ≠ .random) :
    variant.profile.levelSearch ≠ .random := by
  cases variant
  case random => exact absurd rfl h
  all_goals simp [profile]

namespace Pass

section Requests

variable {α : Type} [Scalar α] {problem : Problem α} {timelines : Timelines α} {pass : Pass α}
  {job : Job α} {request : Request α} {turns : List (Turn α)} {generator following : Generator}

/-- A request asks for the sub-deadline of its job, and for the sub-goal if reliability counts. -/
theorem limits_of_request (h : pass.request problem job = .ok request) :
    request.subDeadline = problem.deadlines.subDeadline job.id ∧
      (problem.profile.reliabilityPruning = true →
        request.subGoal = problem.budget.subGoal pass.reliability pass.placed.length) := by
  obtain ⟨arrivals, -, hrest⟩ := exists_of_bind_eq_ok h
  obtain rfl := Except.ok.inj hrest
  exact ⟨rfl, fun hpruning => if_pos hpruning⟩

end Requests

variable {K : Type} [Field K] [LinearOrder K] [IsStrictOrderedRing K] [FloorRing K]
  [Exponentials K] {problem : Problem (Exact K)} {timelines : Timelines (Exact K)}
  {pass : Pass (Exact K)} {job : Job (Exact K)} {request : Request (Exact K)}
  {candidate : Candidate (Exact K)} {turns : List (Turn (Exact K))}
  {generator following : Generator} {goal y : K}

/-- An offered candidate does not finish before 0, whatever the windows are. -/
theorem Asks.zero_le_finish (hasks : pass.Asks problem job request)
    (hcatalog : problem.catalog.Drafted) (hmeasured : problem.workflow.Measured)
    (hjob : job ∈ problem.workflow.jobs) (hoffers : request.Offers candidate) :
    finite 0 ≤ candidate.finish := by
  obtain ⟨node, hnode, level, hlevel, place, rfl⟩ := hasks.exists_evaluate hoffers
  obtain ⟨d, hduration, hd⟩ := hcatalog.execTime_amount hmeasured hjob hnode hlevel
  have hstart := Timeline.zero_le_probe (request.timelines.ofNode node.id)
    (level.execTime request.job.length) (request.readyTime node)
  simp only [Request.evaluate]
  rw [hasks.job_eq, hduration] at hstart ⊢
  -- The start may be infinite, but it is not undefined.
  exact Exact.le_add_of_nonneg hstart hd

/-- A placement for a job that finds a candidate finishes between 0 and what bounds the
sub-deadlines. -/
theorem Takes.finish_le (h : Takes problem timelines generator turns pass following)
    (hcatalog : problem.catalog.Drafted) (hmeasured : problem.workflow.Measured)
    (hlevel : problem.profile.levelSearch ≠ .random)
    (hsub : ∀ id ∈ problem.workflow.jobIds, problem.deadlines.subDeadline id ≤ finite y)
    (hfinds : ∀ turn ∈ turns, turn.finds = true) :
    ∀ placement ∈ pass.placed, finite 0 ≤ placement.finish ∧ placement.finish ≤ finite y := by
  rw [h.placed_eq]
  intro placement hplacement
  obtain ⟨turn, hturn, rfl⟩ := List.mem_map.1 hplacement
  obtain ⟨hjob, earlier, hrequest⟩ := h.exists_request turn hturn
  obtain ⟨hasks, -⟩ := asks_of_request hrequest
  obtain ⟨hdeadline, -⟩ := limits_of_request hrequest
  have hstart := hasks.zero_le_finish hcatalog hmeasured hjob turn.offers
  have hbound := hsub turn.job.id (List.mem_map_of_mem hjob)
  rw [← hdeadline] at hbound
  rw [← hasks.problem_eq] at hlevel
  have hadmits := (Request.search_admits hlevel (hfinds turn hturn)).1
  exact ⟨hstart, Exact.le_trans (Exact.le_of_not_lt hstart hbound hadmits) hbound⟩

/-- A pass with placements, all of them for jobs that find candidates, finishes no later than what
bounds the sub-deadlines. -/
theorem Takes.finishTime_le (h : Takes problem timelines generator turns pass following)
    (hcatalog : problem.catalog.Drafted) (hmeasured : problem.workflow.Measured)
    (hlevel : problem.profile.levelSearch ≠ .random)
    (hsub : ∀ id ∈ problem.workflow.jobIds, problem.deadlines.subDeadline id ≤ finite y)
    (hfinds : ∀ turn ∈ turns, turn.finds = true) (hne : pass.placed ≠ []) :
    pass.finishTime ≤ finite y := by
  have hfinish := h.finish_le hcatalog hmeasured hlevel hsub hfinds
  refine Exact.maxFrom_le ?_ fun finish hmem => ?_
  · -- A placement lies between 0 and the bound.
    obtain ⟨placement, hplacement⟩ := List.exists_mem_of_ne_nil _ hne
    rw [zero_eq]
    exact Exact.le_trans (hfinish placement hplacement).1 (hfinish placement hplacement).2
  · obtain ⟨placement, hplacement, rfl⟩ := List.mem_map.1 hmem
    exact (hfinish placement hplacement).2

/-- A complete pass reaches the goal, if its last job finds a candidate, reliability counts and
every level has some. -/
theorem Takes.goal_le_reliability (h : Takes problem timelines generator turns pass following)
    (hlevel : problem.profile.levelSearch ≠ .random)
    (hpruning : problem.profile.reliabilityPruning = true)
    (hbudget : problem.budget = .ofGoal (finite goal) problem.workflow.jobs.length)
    (hlevels : problem.LevelsHave fun x => 0 < x)
    (hfinds : ∀ turn ∈ turns, turn.finds = true) (hne : pass.placed ≠ [])
    (hall : pass.placed.length = problem.workflow.jobs.length) :
    finite goal ≤ pass.reliability := by
  cases h with
  | start => exact absurd rfl hne
  | place turns pass turn hbefore hjob _ hrequest =>
      obtain ⟨hasks, -⟩ := asks_of_request hrequest
      obtain ⟨achieved, hachieved, hpos⟩ :=
        hbefore.reached.reliability_of_levels one_pos (fun x y hx hy => mul_pos hx hy) hlevels
      obtain ⟨last, hlast, -⟩ := hasks.reliability_of_levels hjob hlevels turn.offers
      rw [← hasks.problem_eq] at hlevel
      have hadmits := (Request.search_admits hlevel
        (hfinds turn (List.mem_append_right turns List.mem_cons_self))).2
      rw [commit_eq_extend hrequest turn.offers] at hall ⊢
      have hcount : pass.placed.length + 1 = problem.workflow.jobs.length := by
        rw [← hall]
        simp [Pass.extend]
      change ¬ turn.result.1.reliability < turn.request.subGoal at hadmits
      rw [(limits_of_request hrequest).2 hpruning, hbudget, ← hcount, hachieved, hlast] at hadmits
      rw [reliability_extend, hachieved, hlast, mul_finite, le_finite]
      exact ReliabilityBudget.goal_le_mul hpos hadmits

/-- A run over any order of all jobs comes to a solution. If the sites give a feasible candidate for
each job, so that none runs on a node by chance, the solution meets the deadline. Where reliability
counts and every level has some, it also reaches the goal and is recorded as feasible. -/
theorem run_meets (hcatalog : problem.catalog.Drafted) (hworkflow : problem.workflow.Drafted)
    (hne : problem.workflow.jobs ≠ []) {variant : Variant} (hvariant : variant ≠ .random)
    (hprofile : problem.profile = variant.profile) {averaging : TransferAveraging}
    {speed : SpeedReference} (hmetrics : Metrics.ofWorkflow problem.workflow problem.catalog
      averaging speed = .ok problem.metrics) {base slackFactor : K} {rule : SubDeadlineRule}
    (hdeadlines : problem.deadlines = .ofWorkflow problem.workflow problem.metrics (finite base)
      (finite slackFactor) rule)
    (hbudget : problem.budget = .ofGoal (finite goal) problem.workflow.jobs.length)
    {order : List JobId} (horder : order.Perm problem.workflow.jobIds)
    (timelines : Timelines (Exact K)) (generator : Generator) :
    ∃ solution following turns,
      (Pass.run problem timelines order).run generator = (.ok solution, following) ∧
      Pass.turns problem solution.commitOrder (start timelines) generator = turns ∧
      turns.map Turn.placement = solution.placed ∧
      ((∀ turn ∈ turns, turn.finds = true) →
        solution.finishTime ≤ problem.deadlines.deadline ∧
        (problem.profile.reliabilityPruning = true →
          (∀ node ∈ problem.catalog.nodes, ∀ level ∈ node.levels, ∀ job ∈ problem.workflow.jobs,
            0 < level.reliability job.length) →
          finite goal ≤ solution.reliability ∧
          ∀ progress : Progress (Exact K),
            (LocalSearch.advance problem progress order solution).history.head?.map
              PassRecord.feasible = some true)) := by
  have harranged := hworkflow.arranged
  obtain ⟨solution, following, hrun⟩ := run_ok harranged timelines horder generator
  obtain ⟨turns, last, htakes, hall, hsolution, -⟩ := exists_takes_of_run harranged hrun
  have hplaced := htakes.reached.placed_eq harranged hsolution
  have hcount : last.placed.length = problem.workflow.jobs.length := by
    simpa [commitOrder, Workflow.jobIds] using hall.length_eq
  have hsome : last.placed ≠ [] := by
    rw [← List.length_pos_iff, hcount]
    exact List.length_pos_iff.2 hne
  have hlevel : problem.profile.levelSearch ≠ .random := by
    rw [hprofile]
    exact Variant.levelSearch_ne_random hvariant
  have hpath := Metrics.criticalPath_finite hcatalog hworkflow.measured hmetrics
  obtain ⟨y, hy⟩ : problem.deadlines.deadline.IsFinite := by
    rw [hdeadlines]
    exact DeadlinePlan.deadline_finite hpath base slackFactor rule
  have hsub : ∀ id ∈ problem.workflow.jobIds, problem.deadlines.subDeadline id ≤ finite y := by
    intro id hid
    rw [hdeadlines] at hy ⊢
    exact DeadlinePlan.subDeadline_le harranged hy hid
  obtain ⟨placements, -, rfl⟩ := solution_eq_ok hsolution
  refine ⟨_, following, turns, hrun, htakes.turns_eq harranged, ?_, fun hfinds => ?_⟩
  · rw [hplaced, htakes.placed_eq]
  have hfinish : last.finishTime ≤ problem.deadlines.deadline := by
    rw [hy]
    exact htakes.finishTime_le hcatalog hworkflow.measured hlevel hsub hfinds hsome
  refine ⟨hfinish, fun hpruning hpositive => ?_⟩
  have hgoal : finite goal ≤ last.reliability := by
    refine htakes.goal_le_reliability hlevel hpruning hbudget
      (fun node hnode level hlevel job hjob => ?_) hfinds hsome hcount
    obtain ⟨rate, time, -, -, hreliability⟩ :=
      hcatalog.reliability_eq hworkflow.measured hjob hnode hlevel
    have hpos := hpositive node hnode level hlevel job hjob
    rw [hreliability, zero_eq, lt_finite] at hpos
    exact ⟨_, hreliability, hpos⟩
  have hmeets : (LocalSearch.Attempt.mk order ⟨placements, last.commitOrder, last.cost,
      last.finishTime, last.reliability, last.timelines⟩).Meets problem := by
    refine ⟨hfinish, ?_⟩
    rw [hbudget]
    exact hgoal
  exact ⟨hgoal, fun progress => congrArg some (LocalSearch.isFeasible_iff.2 hmeets)⟩

end Pass

namespace Fork

/-- Every job of the fork finds a candidate, and the pass is feasible. -/
theorem found_in_time : catalog.Drafted ∧ workflow.Drafted ∧ workflow.jobs ≠ [] ∧
    [0, 1, 2].Perm workflow.jobIds ∧
    ∃ metrics, Metrics.ofWorkflow workflow catalog .siteAggregated .mean = .ok metrics ∧
    ∃ solution following turns,
      (Pass.run (planner.problemOf workflow metrics) planner.timelines [0, 1, 2]).run
        planner.generator = (.ok solution, following) ∧
      Pass.turns (planner.problemOf workflow metrics) solution.commitOrder
        (.start planner.timelines) planner.generator = turns ∧
      (∀ turn ∈ turns, turn.finds = true) ∧
      solution.finishTime ≤ (planner.deadlinesOf workflow metrics).deadline ∧
      finite 1 ≤ solution.reliability := by
  obtain ⟨metrics, hmetrics, -⟩ := Metrics.ofWorkflow_eq_ok workflow_drafted.arranged catalog
    .siteAggregated .mean
  have hfound : ((Metrics.ofWorkflow workflow catalog .siteAggregated .mean).toOption.all
      fun metrics => ((Pass.run (planner.problemOf workflow metrics) planner.timelines
        [0, 1, 2]).run planner.generator).1.toOption.all fun solution =>
          (Pass.turns (planner.problemOf workflow metrics) solution.commitOrder
            (.start planner.timelines) planner.generator).all Turn.finds) = true := by
    decide +kernel
  have hbase : Scalar.max planner.globalFinishTime workflow.submittedAt = finite 5 := by
    decide +kernel
  have hpositive : ∀ node ∈ catalog.nodes, ∀ level ∈ node.levels, ∀ job ∈ workflow.jobs,
      0 < level.reliability job.length := by
    decide +kernel
  have horder : [0, 1, 2].Perm workflow.jobIds := by decide
  have hne : workflow.jobs ≠ [] := by simp [workflow]
  have hcatalog : (planner.problemOf workflow metrics).catalog.Drafted := catalog_drafted
  have hvariant : Variant.reliabilityAware ≠ .random := by decide
  have hbudget : (planner.problemOf workflow metrics).budget =
      .ofGoal (finite 1) workflow.jobs.length := rfl
  have hdeadlines : planner.deadlinesOf workflow metrics =
      .ofWorkflow workflow metrics (finite 5) (finite 9) .rankShare := by
    rw [Planner.deadlinesOf, hbase]
    rfl
  obtain ⟨solution, following, turns, hrun, hturns, -, hmeets⟩ :=
    Pass.run_meets hcatalog workflow_drafted hne hvariant rfl hmetrics hdeadlines hbudget horder
      planner.timelines planner.generator
  rw [hmetrics] at hfound
  have hfinds : ∀ turn ∈ turns, turn.finds = true := by
    simp only [Except.toOption, Option.all_some, hrun, hturns] at hfound
    exact List.all_eq_true.1 hfound
  obtain ⟨hfinish, hgoal⟩ := hmeets hfinds
  exact ⟨catalog_drafted, workflow_drafted, hne, horder, metrics, hmetrics, solution, following,
    turns, hrun, hturns, hfinds, hfinish, (hgoal rfl hpositive).1⟩

end Fork

end WattPlan
