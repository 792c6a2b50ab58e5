import WattPlan.Proofs.LocalSearch.Attempts
import WattPlan.Proofs.Metrics.Growth
import WattPlan.Proofs.Pass.Sweeps
import WattPlan.Proofs.Sorting

/-!
# The first order of a search

The first order sorts the jobs by a comparison that depends on the priority
(`Workflow.initialOrder_eq`). Earliest finishes do not fall along a dependency and upward ranks do
not grow. Where they stay the same, because jobs or transfers take no time, the depth decides. So
under every priority a parent comes before its children (`Metrics.Tells.compareJobs_parent`), and
the first pass takes one sweep and places the jobs in exactly this order: `initialOrder_swept`.
-/

namespace WattPlan

open Exact

section Comparing

variable {α : Type} [Scalar α]

/-- How two jobs compare under a priority. -/
def Metrics.compareJobs (metrics : Metrics α) (key : PriorityKey) (a b : Job α) : Ordering :=
  let through := fun job : Job α => metrics.upwardRank job.id + metrics.downwardRank job.id
  let byKey :=
    match key with
    | .upwardRank => (Scalar.totalOrder (metrics.upwardRank b.id) (metrics.upwardRank a.id)).then
        (compare a.depth b.depth)
    | .depth => compare a.depth b.depth
    | .eft =>
        (Scalar.totalOrder (metrics.earliestFinish a.id) (metrics.earliestFinish b.id)).then
          (compare a.depth b.depth)
    | .criticalPath => (compare a.depth b.depth).then (Scalar.totalOrder (through b) (through a))
  byKey.then (compare a.id b.id)

/-- The first order sorts the jobs by their comparison. -/
theorem Workflow.initialOrder_eq (workflow : Workflow α) (metrics : Metrics α)
    (key : PriorityKey) : workflow.initialOrder metrics key =
      (workflow.jobs.mergeSort fun a b => (metrics.compareJobs key a b).isLE).map Job.id := by
  cases key <;> rfl

/-- Where quantities are compared in a total order, so are jobs. -/
theorem Metrics.transCmp_compareJobs [Std.TransCmp (Scalar.totalOrder : α → α → Ordering)]
    (metrics : Metrics α) (key : PriorityKey) : Std.TransCmp (metrics.compareJobs key) := by
  have hdepth : Std.TransCmp fun a b : Job α => compare a.depth b.depth :=
    inferInstanceAs (Std.TransCmp (compareOn Job.depth))
  cases key with
  | upwardRank =>
      have hrank := transCmp_falling fun job : Job α => metrics.upwardRank job.id
      exact transCmp_then_number (transCmp_then_number hrank Job.depth) Job.id
  | depth => exact transCmp_then_number hdepth Job.id
  | eft =>
      have hfinish := transCmp_quantity fun job : Job α => metrics.earliestFinish job.id
      exact transCmp_then_number (transCmp_then_number hfinish Job.depth) Job.id
  | criticalPath =>
      have hthrough := transCmp_falling fun job : Job α =>
        metrics.upwardRank job.id + metrics.downwardRank job.id
      exact transCmp_then_number (inferInstanceAs (Std.TransCmp (compareLex _ _))) Job.id

/-- Of two jobs in the first order, the first one does not compare as the later one. -/
theorem Workflow.Arranged.initialOrder_pairwise
    [Std.TransCmp (Scalar.totalOrder : α → α → Ordering)] {workflow : Workflow α}
    (h : workflow.Arranged) (metrics : Metrics α) (key : PriorityKey) :
    (workflow.initialOrder metrics key).Pairwise fun a b => ∀ first second,
      workflow.job? a = some first → workflow.job? b = some second →
        (metrics.compareJobs key first second).isLE = true := by
  have hcmp := metrics.transCmp_compareJobs key
  have hsorted : (workflow.jobs.mergeSort fun a b => (metrics.compareJobs key a b).isLE).Pairwise
      fun a b => (metrics.compareJobs key a b).isLE = true := pairwise_mergeSort_isLE workflow.jobs
  rw [workflow.initialOrder_eq, List.pairwise_map]
  refine hsorted.imp_of_mem fun {a b} ha hb hle first second hfirst hsecond => ?_
  rw [List.mem_mergeSort] at ha hb
  rw [h.job?_id ha] at hfirst
  rw [h.job?_id hb] at hsecond
  obtain rfl := Option.some.inj hfirst
  obtain rfl := Option.some.inj hsecond
  exact hle

end Comparing

section Priorities

variable {K : Type} [Field K] [LinearOrder K] [FloorRing K] [Exponentials K]
  {workflow : Workflow (Exact K)} {catalog : Catalog (Exact K)} {metrics : Metrics (Exact K)}
  {times : JobTimes K}

omit [Field K] [FloorRing K] [Exponentials K] in
/-- Where a quantity does not fall, what decides between equal ones decides. -/
theorem compare_then_eq_lt {x y : K} {tie : Ordering} (hle : x ≤ y) (htie : tie = .lt) :
    (compare x y).then tie = .lt := by
  rcases hle.lt_or_eq with hlt | rfl
  · rw [compare_lt_iff_lt.2 hlt]
    rfl
  · rw [compare_eq_iff_eq.2 rfl, htie]
    rfl

/-- Under every priority a parent comes before its children. -/
theorem Metrics.Tells.compareJobs_parent [IsStrictOrderedRing K]
    (h : metrics.Tells workflow times) (harranged : workflow.Arranged) (key : PriorityKey)
    {job upper : Job (Exact K)} (hjob : job ∈ workflow.jobs) (hupper : upper ∈ workflow.jobs)
    (hparent : upper.id ∈ job.parents) : metrics.compareJobs key upper job = .lt := by
  have hdepth : compare upper.depth job.depth = .lt :=
    compare_lt_iff_lt.2 (harranged.depth_lt hjob hupper hparent)
  have hrank : times.rank job.id ≤ times.rank upper.id := by
    have hfalls := h.rank_falls job hjob upper.id hparent
    have hweight := h.weight_nonneg upper hupper
    linarith
  have hfinish : times.finish upper.id ≤ times.finish job.id := by
    have hgrows := h.finish_grows job hjob upper.id hparent
    have hweight := h.weight_nonneg job hjob
    linarith
  unfold Metrics.compareJobs
  cases key with
  | upwardRank =>
      have hbyRank := compare_then_eq_lt hrank hdepth
      dsimp only
      rw [h.upwardRank job hjob, h.upwardRank upper hupper]
      exact congrArg (Ordering.then · _) hbyRank
  | depth =>
      dsimp only
      rw [hdepth]
      rfl
  | eft =>
      have hbyFinish := compare_then_eq_lt hfinish hdepth
      dsimp only
      rw [h.earliestFinish upper hupper, h.earliestFinish job hjob]
      exact congrArg (Ordering.then · _) hbyFinish
  | criticalPath =>
      dsimp only
      rw [hdepth]
      rfl

/-- In the first order every job comes after its parents. -/
theorem Metrics.Tells.initialOrder_respects [IsStrictOrderedRing K]
    (h : metrics.Tells workflow times) (harranged : workflow.Arranged) (key : PriorityKey) :
    Respects workflow.parentsOf (workflow.initialOrder metrics key) := by
  have hcmp := metrics.transCmp_compareJobs key
  have hperm := workflow.initialOrder_perm metrics key
  refine Respects.of_pairwise (harranged.initialOrder_pairwise metrics key) ?_
  intro id hid need hneed
  rw [hperm.mem_iff] at hid ⊢
  obtain ⟨hmem, hlt⟩ := harranged.parentsOf_lt hid hneed
  obtain ⟨job, hjob, rfl⟩ := List.mem_map.1 hid
  obtain ⟨upper, hupper, rfl⟩ := List.mem_map.1 hmem
  rw [harranged.parentsOf_id hjob] at hneed
  refine ⟨hmem, fun heq => ?_, fun hle => ?_⟩
  · rw [heq] at hlt
    exact Nat.lt_irrefl _ hlt
  · have hbefore := h.compareJobs_parent harranged key hjob hupper hneed
    have hbehind := hle job upper (harranged.job?_id hjob) (harranged.job?_id hupper)
    rw [hcmp.eq_swap, hbefore] at hbehind
    cases hbehind

/-- The first order of a drafted workflow on a drafted catalog is one of all jobs, sorted by their
comparison, in which every job comes after its parents, whatever the priority. So from any timelines
and any generator the first pass takes one sweep and places the jobs in this order. -/
theorem initialOrder_swept [IsStrictOrderedRing K] (hcatalog : catalog.Drafted)
    (hworkflow : workflow.Drafted) (averaging : TransferAveraging) (speed : SpeedReference)
    (key : PriorityKey) :
    ∃ metrics, Metrics.ofWorkflow workflow catalog averaging speed = .ok metrics ∧
      (workflow.initialOrder metrics key).Perm workflow.jobIds ∧
      ((workflow.initialOrder metrics key).Pairwise fun a b => ∀ first second,
        workflow.job? a = some first → workflow.job? b = some second →
          (metrics.compareJobs key first second).isLE = true) ∧
      Respects workflow.parentsOf (workflow.initialOrder metrics key) ∧
      ∀ problem : Problem (Exact K), problem.workflow = workflow → ∀ timelines generator,
        ∃ last solution following,
          (Pass.sweep problem (workflow.initialOrder metrics key) (.start timelines)).run
            generator = (.ok (last, []), following) ∧
          last.solution workflow = .ok solution ∧
          (Pass.run problem timelines (workflow.initialOrder metrics key)).run generator =
            (.ok solution, following) ∧
          solution.commitOrder = workflow.initialOrder metrics key := by
  obtain ⟨metrics, times, hmetrics, htells⟩ :=
    Metrics.exists_tells hcatalog hworkflow averaging speed
  have hperm := workflow.initialOrder_perm metrics key
  have hrespects := htells.initialOrder_respects hworkflow.arranged key
  refine ⟨metrics, hmetrics, hperm, hworkflow.arranged.initialOrder_pairwise metrics key,
    hrespects, ?_⟩
  rintro problem rfl timelines generator
  exact Pass.run_of_respects hworkflow.arranged timelines hperm hrespects generator

end Priorities

/-!
## Jobs of no length

A chain of jobs that take no time, the last of which has the smallest number. All ranks and all
finishes are equal.
-/

namespace Weightless

open Exact.WithoutExponentials

def steps : List (WorkflowDraft.Step (Exact ℚ)) :=
  [.job "last" (finite 0), .job "first" (finite 0), .job "middle" (finite 0), .dependency 1 2,
    .dependency 2 0]

def workflow : Workflow (Exact ℚ) where
  id := 8
  name := "weightless"
  submittedAt := finite 3
  reliabilityGoal := none
  deadline := none
  jobs :=
    [⟨0, "last", finite 0, 2, [2], [], [], [], [], none⟩,
      ⟨1, "first", finite 0, 0, [], [2], [], [], [], none⟩,
      ⟨2, "middle", finite 0, 1, [1], [0], [], [], [], none⟩]

theorem workflow_drafted : workflow.Drafted := by
  refine ⟨_, (WorkflowDraft.Drawn.empty 8 "weightless" (finite 3) none).perform steps, ?_⟩
  cbv

/-- Where all ranks are equal, the chain is still placed from its first job on, against the numbers
of its jobs. -/
theorem chain_swept : ThreeNodes.catalog.Drafted ∧ workflow.Drafted ∧
    ¬ Respects workflow.parentsOf workflow.jobIds ∧ ∃ metrics : Metrics (Exact ℚ),
      Metrics.ofWorkflow workflow ThreeNodes.catalog .nodePairs .mean = .ok metrics ∧
      (∀ job ∈ workflow.jobs, metrics.upwardRank job.id = finite 0) ∧
      (workflow.initialOrder metrics .upwardRank).Perm workflow.jobIds ∧
      Respects workflow.parentsOf (workflow.initialOrder metrics .upwardRank) ∧
      ∀ problem : Problem (Exact ℚ), problem.workflow = workflow → ∀ timelines generator,
        ∃ last solution following,
          (Pass.sweep problem (workflow.initialOrder metrics .upwardRank) (.start timelines)).run
            generator = (.ok (last, []), following) ∧
          last.solution workflow = .ok solution ∧
          (Pass.run problem timelines (workflow.initialOrder metrics .upwardRank)).run generator =
            (.ok solution, following) ∧
          solution.commitOrder = workflow.initialOrder metrics .upwardRank := by
  obtain ⟨metrics, hmetrics, hperm, -, hrespects, hswept⟩ := initialOrder_swept
    ThreeNodes.catalog_drafted workflow_drafted .nodePairs .mean .upwardRank
  have hvalues : (Metrics.ofWorkflow workflow ThreeNodes.catalog .nodePairs .mean).toOption.map
      (fun metrics => workflow.jobs.map fun job => metrics.upwardRank job.id) =
        some [finite 0, finite 0, finite 0] := by
    decide +kernel
  simp only [hmetrics, Except.toOption, Option.map_some, Option.some.injEq] at hvalues
  have hranks : ∀ job ∈ workflow.jobs, metrics.upwardRank job.id = finite 0 := by
    intro job hjob
    have hmem := List.mem_map_of_mem (f := fun job => metrics.upwardRank job.id) hjob
    rw [hvalues] at hmem
    simpa using hmem
  have hnumbers : ¬ Respects workflow.parentsOf workflow.jobIds := fun hrespects =>
    absurd (hrespects [] 0 [1, 2] rfl 2 (by decide)) (by simp)
  exact ⟨ThreeNodes.catalog_drafted, workflow_drafted, hnumbers, metrics, hmetrics, hranks, hperm,
    hrespects, hswept⟩

end Weightless

end WattPlan
