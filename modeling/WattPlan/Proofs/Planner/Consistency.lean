import WattPlan.Proofs.Pass.Billing
import WattPlan.Proofs.Planner.Calls

/-!
# Consistency of a planner

Over exact quantities a planner stays consistent whatever workflows it is called with: the windows
on every node are sorted and disjoint, they belong to the committed jobs, and the totals are those
of the returned plans and of the windows (`History.consistent`). No call moves or removes a window
(`plan_sublist_ofNode`). `history_consistent` puts this together.
-/

namespace WattPlan

open Exact

namespace Workflow

variable {K : Type} [Field K] [LinearOrder K] [FloorRing K] [Exponentials K]

/-- The workflows that a planner is called with: drafted ones with a finite submission, whether or
not they were planned before. -/
def Submitted (workflow : Workflow (Exact K)) : Prop :=
  workflow.Drafted ∧ workflow.submittedAt.IsFinite

/-- A workflow can be submitted again after a call. -/
theorem Submitted.plan {workflow : Workflow (Exact K)} (h : workflow.Submitted)
    (planner : Planner (Exact K)) : (planner.plan workflow).workflow.Submitted := by
  obtain ⟨⟨draft, hdrawn, hbuild⟩, hsubmitted⟩ := h
  have hunplanned := planner.plan_unplanned workflow
  have hkept : (planner.plan workflow).workflow.unplanned.submittedAt.IsFinite := by
    rw [hunplanned]
    exact hsubmitted
  exact ⟨⟨draft, hdrawn, by rw [hunplanned]; exact hbuild⟩, hkept⟩

end Workflow

namespace Pass

variable {K : Type} [Field K] [LinearOrder K] [IsStrictOrderedRing K] [FloorRing K]
  [Exponentials K] {problem : Problem (Exact K)} {timelines : Timelines (Exact K)}
  {solution : Solution (Exact K)}

namespace Solves

/-- A solution from sound timelines has sound timelines. -/
theorem sound (h : Solves problem timelines solution) (htimed : problem.Timed)
    (hsound : ∀ node, (timelines.ofNode node).Sound) (node : NodeId) :
    (solution.timelines.ofNode node).Sound := by
  obtain ⟨pass, placements, hreached, -, rfl⟩ := h.exists_pass
  exact (hreached.timed htimed hsound).sound node

/-- The finish of a solution is the latest finish of its new windows, and 0 without any. -/
theorem finishTime_finite (h : Solves problem timelines solution) (htimed : problem.Timed)
    (hsound : ∀ node, (timelines.ofNode node).Sound)
    (hlength : timelines.nodes.length = problem.catalog.nodes.length) :
    ∃ y added, solution.finishTime = finite y ∧
      solution.timelines.windows.Perm (timelines.windows ++ added) ∧ 0 ≤ y ∧
      (∀ window ∈ added, window.finish ≤ finite y) ∧
      (y = 0 ∨ ∃ window ∈ added, window.finish = finite y) := by
  obtain ⟨pass, placements, hreached, -, rfl⟩ := h.exists_pass
  have hfinishes := (hreached.timed htimed hsound).finishes
  obtain ⟨y, hmax, hle, hall, hmem⟩ := maxFrom_finite
    (pass.placed.map fun placement => placement.finish) (by
      intro finish hfinish
      obtain ⟨placement, hplacement, rfl⟩ := List.mem_map.1 hfinish
      exact hfinishes placement hplacement) 0
  refine ⟨y, _, ?_, hreached.windows_perm htimed.catalog hlength, hle, ?_, ?_⟩
  · show Scalar.maxFrom 0 _ = _
    rw [zero_eq]
    exact hmax
  · intro window hwindow
    obtain ⟨placement, hplacement, rfl⟩ := List.mem_map.1 hwindow
    exact hall _ (List.mem_map_of_mem hplacement)
  · refine hmem.imp_right fun hfinish => ?_
    obtain ⟨placement, hplacement, heq⟩ := List.mem_map.1 hfinish
    exact ⟨_, List.mem_map_of_mem hplacement, heq⟩

end Solves

end Pass

namespace Planner

/-- A call leaves the windows that were there on their nodes and in their order. -/
theorem plan_sublist_ofNode {α : Type} [Scalar α] {workflow : Workflow α}
    (harranged : workflow.Arranged) (planner : Planner α) (node : NodeId) :
    (planner.timelines.ofNode node).windows.Sublist
      ((planner.plan workflow).planner.timelines.ofNode node).windows := by
  by_cases hne : workflow.jobs = []
  · rw [plan_of_jobs_eq_nil planner hne]
  · obtain ⟨metrics, attempts, generator, -, -, -, hsolves, hplan | hplan⟩ :=
      plan_of_arranged harranged hne planner
    · rw [hplan.1]
    · obtain ⟨attempt, hattempt, -, progress, hplan⟩ := hplan
      rw [hplan]
      exact (hsolves attempt hattempt).2.sublist_ofNode node

section Exact

variable {K : Type} [Field K] [LinearOrder K] [IsStrictOrderedRing K] [FloorRing K]
  [Exponentials K] {catalog : Catalog (Exact K)} {settings : Settings (Exact K)}
  {planner : Planner (Exact K)} {plans : List (Plan (Exact K))} {workflow : Workflow (Exact K)}
  {metrics : Metrics (Exact K)} {solution : Solution (Exact K)}

/-- What a planner carries from one workflow to the next is consistent with the plans that it has
returned. -/
structure Consistent (plans : List (Plan (Exact K))) (planner : Planner (Exact K)) : Prop where
  nodes : planner.timelines.nodes.length = planner.catalog.nodes.length
  sound : ∀ node, (planner.timelines.ofNode node).Sound
  jobs : (planner.timelines.windows.map Window.job).Perm planner.committed
  cost : ∃ costs : List K, plans.map Plan.cost = costs.map finite ∧
    planner.totalCost = finite costs.sum
  finish : ∃ g, planner.globalFinishTime = finite g ∧ 0 ≤ g ∧
    (∀ window ∈ planner.timelines.windows, window.finish ≤ finite g) ∧
    (g = 0 ∨ ∃ window ∈ planner.timelines.windows, window.finish = finite g)

omit [IsStrictOrderedRing K] in
/-- What planning a submitted workflow starts from has exact times. -/
theorem problemOf_timed (hcatalog : planner.catalog.Drafted) (hworkflow : workflow.Submitted)
    (hfits : metrics.Fits workflow planner.catalog) :
    (planner.problemOf workflow metrics).Timed :=
  ⟨hcatalog, hworkflow.1.arranged, hworkflow.1.measured, hfits, hworkflow.2⟩

omit [IsStrictOrderedRing K] in
/-- A planner is consistent at the start. -/
theorem Consistent.start (catalog : Catalog (Exact K)) (settings : Settings (Exact K)) :
    Consistent [] (Planner.start catalog settings) := by
  have hwindows : (Timelines.idle catalog.nodes.length : Timelines (Exact K)).windows = [] := by
    simp [Timelines.idle, Timelines.windows, Timeline.idle]
  constructor
  case nodes => simp [Planner.start, Timelines.idle]
  case sound => exact Timelines.sound_idle _
  case jobs =>
    show ((Timelines.idle catalog.nodes.length).windows.map Window.job).Perm []
    rw [hwindows]
    exact List.Perm.nil
  case cost => exact ⟨[], rfl, zero_eq⟩
  case finish =>
    refine ⟨0, zero_eq, le_rfl, ?_, .inl rfl⟩
    show ∀ window ∈ (Timelines.idle catalog.nodes.length).windows, _
    rw [hwindows]
    exact fun window hwindow => absurd hwindow List.not_mem_nil

/-- Committing a solution with the plan of its cost keeps a planner consistent. -/
theorem Consistent.commit (h : Consistent plans planner) (hcatalog : planner.catalog.Drafted)
    (hworkflow : workflow.Submitted) (hfits : metrics.Fits workflow planner.catalog)
    (hsolves : Pass.Solves (planner.problemOf workflow metrics) planner.timelines solution)
    {plan : Plan (Exact K)} (hcost : plan.cost = solution.cost) :
    Consistent (plans ++ [plan]) (planner.commit workflow solution) := by
  have htimed := problemOf_timed hcatalog hworkflow hfits
  constructor
  case nodes => exact hsolves.length_timelines.trans h.nodes
  case sound => exact hsolves.sound htimed h.sound
  case jobs =>
    show (solution.timelines.windows.map Window.job).Perm (planner.committed ++ _)
    exact (hsolves.jobs_perm hcatalog h.nodes).trans (List.Perm.append_right _ h.jobs)
  case cost =>
    obtain ⟨costs, hcosts, htotal⟩ := h.cost
    obtain ⟨x, hx⟩ := hsolves.cost_finite htimed h.sound
    refine ⟨costs ++ [x], ?_, ?_⟩
    · rw [List.map_append, List.map_append, hcosts, List.map_singleton, List.map_singleton, hcost,
        hx]
    · show planner.totalCost + solution.cost = _
      rw [htotal, hx, add_finite, List.sum_append, List.sum_singleton]
  case finish =>
    obtain ⟨g, hg, hpos, hbound, hreach⟩ := h.finish
    obtain ⟨y, added, hy, hperm, -, hnewbound, hnewreach⟩ :=
      hsolves.finishTime_finite htimed h.sound h.nodes
    refine ⟨max g y, ?_, le_trans hpos (le_max_left g y), ?_, ?_⟩
    · show Scalar.max planner.globalFinishTime solution.finishTime = _
      rw [hg, hy, max_finite]
    · intro window hwindow
      rcases List.mem_append.1 (hperm.mem_iff.1 hwindow) with hold | hnew
      · exact Exact.le_trans (hbound window hold) (le_finite.2 (le_max_left g y))
      · exact Exact.le_trans (hnewbound window hnew) (le_finite.2 (le_max_right g y))
    · -- The larger of the two finishes is reached where it was reached before.
      show _ ∨ ∃ window ∈ solution.timelines.windows, _
      rcases max_choice g y with hmax | hmax
      · rw [hmax]
        refine hreach.imp_right fun ⟨window, hwindow, hfinish⟩ => ?_
        exact ⟨window, hperm.mem_iff.2 (List.mem_append_left _ hwindow), hfinish⟩
      · rw [hmax]
        refine hnewreach.imp_right fun ⟨window, hwindow, hfinish⟩ => ?_
        exact ⟨window, hperm.mem_iff.2 (List.mem_append_right _ hwindow), hfinish⟩

/-- A planner is consistent after every history of calls. -/
theorem History.consistent (h : History catalog settings Workflow.Submitted plans planner)
    (hcatalog : catalog.Drafted) : Consistent plans planner := by
  refine h.preserves (fun workflow hworkflow => hworkflow.1.arranged)
    (fun generator => ?_) (fun plans planner generator hplanner => ?_) ?_
  · obtain ⟨hnodes, hsound, hjobs, hcost, hfinish⟩ := Consistent.start catalog settings
    exact ⟨hnodes, hsound, hjobs, hcost, hfinish⟩
  · obtain ⟨hnodes, hsound, hjobs, hcost, hfinish⟩ := hplanner
    exact ⟨hnodes, hsound, hjobs, hcost, hfinish⟩
  · intro plans planner workflow metrics solution plan hplanner hsame hworkflow hfits hsolves hcost
    rw [← hsame] at hcatalog hfits
    exact hplanner.commit hcatalog hworkflow hfits hsolves hcost

/-- After every history of calls with submitted workflows, the windows on each node are sorted and
no instant lies in two of them; the next call leaves them in place; their jobs are the committed
ones; the total cost is the sum of the costs of the returned plans; and the latest finish is the
largest of 0 and the finishes of the windows. -/
theorem history_consistent (hcatalog : catalog.Drafted)
    (h : History catalog settings Workflow.Submitted plans planner) :
    (∀ node, (planner.timelines.ofNode node).windows.Pairwise fun a b => a.start ≤ b.start ∧
      ∀ t, ¬ ((a.start ≤ t ∧ t < a.finish) ∧ b.start ≤ t ∧ t < b.finish)) ∧
    (∀ workflow : Workflow (Exact K), workflow.Submitted → ∀ node,
      (planner.timelines.ofNode node).windows.Sublist
        ((planner.plan workflow).planner.timelines.ofNode node).windows) ∧
    (planner.timelines.windows.map Window.job).Perm planner.committed ∧
    (∃ costs : List K, plans.map Plan.cost = costs.map finite ∧
      planner.totalCost = finite costs.sum) ∧
    ∃ g, planner.globalFinishTime = finite g ∧ 0 ≤ g ∧
      (∀ window ∈ planner.timelines.windows, window.finish ≤ finite g) ∧
      (g = 0 ∨ ∃ window ∈ planner.timelines.windows, window.finish = finite g) := by
  have hconsistent := h.consistent hcatalog
  refine ⟨fun node => ?_, fun workflow hworkflow node => ?_, hconsistent.jobs, hconsistent.cost,
    hconsistent.finish⟩
  · have hsound := hconsistent.sound node
    refine (hsound.sorted.and hsound.apart).imp fun hab => ?_
    exact ⟨hab.1, hab.2.disjoint⟩
  · exact plan_sublist_ofNode hworkflow.1.arranged planner node

end Exact

end Planner

namespace Chain

theorem workflow_submitted (goal : ℚ) : (workflow goal).Submitted :=
  ⟨workflow_drafted goal, 5, rfl⟩

/-- The chain is planned, planned again, and then asked to be too reliable. -/
def planned : Outcome (Exact ℚ) := planner.plan (workflow 1)

def replanned : Outcome (Exact ℚ) := planned.planner.plan planned.workflow

def refused : Outcome (Exact ℚ) := replanned.planner.plan (workflow 4)

theorem refused_consistent : catalog.Drafted ∧
    ∃ plans, Planner.History catalog settings Workflow.Submitted plans refused.planner ∧
      (∀ node, (refused.planner.timelines.ofNode node).windows.Pairwise fun a b =>
        a.start ≤ b.start ∧
          ∀ t, ¬ ((a.start ≤ t ∧ t < a.finish) ∧ b.start ≤ t ∧ t < b.finish)) ∧
      (∀ workflow : Workflow (Exact ℚ), workflow.Submitted → ∀ node,
        (refused.planner.timelines.ofNode node).windows.Sublist
          ((refused.planner.plan workflow).planner.timelines.ofNode node).windows) ∧
      (refused.planner.timelines.windows.map Window.job).Perm refused.planner.committed ∧
      (∃ costs : List ℚ, plans.map Plan.cost = costs.map finite ∧
        refused.planner.totalCost = finite costs.sum) ∧
      ∃ g, refused.planner.globalFinishTime = finite g ∧ 0 ≤ g ∧
        (∀ window ∈ refused.planner.timelines.windows, window.finish ≤ finite g) ∧
        (g = 0 ∨ ∃ window ∈ refused.planner.timelines.windows, window.finish = finite g) := by
  have hstart : Planner.History catalog settings Workflow.Submitted [] planner :=
    .start planner.generator
  have hplanned := hstart.call _ _ (workflow 1) (workflow_submitted 1)
  have hreplanned := hplanned.call _ _ planned.workflow ((workflow_submitted 1).plan planner)
  have hrefused := hreplanned.call _ _ (workflow 4) (workflow_submitted 4)
  exact ⟨catalog_drafted, _, hrefused, Planner.history_consistent catalog_drafted hrefused⟩

end Chain

end WattPlan
