import WattPlan.Proofs.Metrics.LongestPaths

/-!
# Metrics along dependencies

The totals of the longest paths grow along a dependency: the path to a parent goes on to the child,
and the path from the child has the parent before it. So on a drafted catalog the earliest finishes
of a drafted workflow grow along its dependencies by the weight of the child at least, and the
upward ranks fall by the weight of the parent at least (`Metrics.exists_tells`).
-/

namespace WattPlan

open Exact

/-- The times of a workflow as numbers: the weight, the earliest finish and the upward rank of each
job, and the length of the longest path. -/
structure JobTimes (K : Type) where
  weight : JobId → K
  finish : JobId → K
  rank : JobId → K
  longest : K

variable {K : Type} [Field K] [LinearOrder K] [FloorRing K] [Exponentials K]
  {workflow : Workflow (Exact K)} {catalog : Catalog (Exact K)} {job : Job (Exact K)}
  {w : JobId → K} {c : JobId → JobId → K}

namespace Metrics

variable {metrics : Metrics (Exact K)}

/-- Metrics tell the times of a workflow. The weight of a job is not negative and is part of its
finish and of its rank, which are no longer than the longest path; and finishes grow along
dependencies while ranks fall. -/
structure Tells (metrics : Metrics (Exact K)) (workflow : Workflow (Exact K)) (times : JobTimes K) :
    Prop where
  weight : ∀ job ∈ workflow.jobs, metrics.weight job = finite (times.weight job.id)
  earliestFinish : ∀ job ∈ workflow.jobs,
    metrics.earliestFinish job.id = finite (times.finish job.id)
  upwardRank : ∀ job ∈ workflow.jobs, metrics.upwardRank job.id = finite (times.rank job.id)
  criticalPath : metrics.criticalPath = finite times.longest
  maxUpwardRank : metrics.maxUpwardRank = finite times.longest
  weight_nonneg : ∀ job ∈ workflow.jobs, 0 ≤ times.weight job.id
  weight_le_finish : ∀ job ∈ workflow.jobs, times.weight job.id ≤ times.finish job.id
  weight_le_rank : ∀ job ∈ workflow.jobs, times.weight job.id ≤ times.rank job.id
  finish_le : ∀ job ∈ workflow.jobs, times.finish job.id ≤ times.longest
  rank_le : ∀ job ∈ workflow.jobs, times.rank job.id ≤ times.longest
  finish_grows : ∀ job ∈ workflow.jobs, ∀ parent ∈ job.parents,
    times.finish parent + times.weight job.id ≤ times.finish job.id
  rank_falls : ∀ job ∈ workflow.jobs, ∀ parent ∈ job.parents,
    times.weight parent + times.rank job.id ≤ times.rank parent

/-- Metrics that follow the longest paths tell the times of a workflow, if no weight is negative. -/
theorem FollowsPaths.exists_tells [IsStrictOrderedRing K] (h : metrics.FollowsPaths workflow w c)
    (harranged : workflow.Arranged)
    (hjobs : ∀ job ∈ workflow.jobs, metrics.weight job = finite (w job.id) ∧ 0 ≤ w job.id)
    (hedges : ∀ job ∈ workflow.jobs, ∀ parent ∈ job.parents, 0 ≤ c parent job.id) :
    ∃ times, metrics.Tells workflow times := by
  obtain ⟨longest, hpath, hrank, hlongest⟩ := h.criticalPath
  have hfinish : ∀ job ∈ workflow.jobs,
      metrics.earliestFinish job.id = finite (metrics.earliestFinish job.id).value ∧
        IsGreatest (workflow.totalsTo w c job.id) (metrics.earliestFinish job.id).value := by
    intro job hjob
    obtain ⟨t, ht, hgreatest⟩ := h.earliestFinish job hjob
    rw [ht]
    exact ⟨rfl, hgreatest⟩
  have hup : ∀ job ∈ workflow.jobs,
      metrics.upwardRank job.id = finite (metrics.upwardRank job.id).value ∧
        IsGreatest (workflow.totalsFrom w c job.id) (metrics.upwardRank job.id).value := by
    intro job hjob
    obtain ⟨t, ht, hgreatest⟩ := h.upwardRank job hjob
    rw [ht]
    exact ⟨rfl, hgreatest⟩
  refine ⟨⟨w, fun id => (metrics.earliestFinish id).value, fun id => (metrics.upwardRank id).value,
    longest⟩, ?_⟩
  constructor
  case weight => exact fun job hjob => (hjobs job hjob).1
  case earliestFinish => exact fun job hjob => (hfinish job hjob).1
  case upwardRank => exact fun job hjob => (hup job hjob).1
  case criticalPath => exact hpath
  case maxUpwardRank => exact hrank
  case weight_nonneg => exact fun job hjob => (hjobs job hjob).2
  case weight_le_finish =>
    intro job hjob
    exact (hfinish job hjob).2.2 ((harranged.mem_totalsTo hjob).2 (.inl rfl))
  case weight_le_rank =>
    intro job hjob
    exact (hup job hjob).2.2 ((harranged.mem_totalsFrom hjob).2 (.inl rfl))
  case finish_le =>
    intro job hjob
    exact hlongest.2 (Workflow.mem_totals_iff_last.2
      (.inr ⟨job.id, List.mem_map_of_mem hjob, (hfinish job hjob).2.1⟩))
  case rank_le =>
    intro job hjob
    exact hlongest.2 (Workflow.mem_totals_iff_first.2
      (.inr ⟨job.id, List.mem_map_of_mem hjob, (hup job hjob).2.1⟩))
  case finish_grows =>
    intro job hjob parent hparent
    obtain ⟨upper, hupper, -⟩ := harranged.parent hjob hparent
    obtain rfl := harranged.id_eq hupper
    have htotal := (hfinish upper (Workflow.mem_of_job? hupper)).2.1
    have hle := (hfinish job hjob).2.2
      ((harranged.mem_totalsTo hjob).2 (.inr ⟨upper.id, hparent, _, htotal, rfl⟩))
    have hedge := hedges job hjob upper.id hparent
    dsimp only
    linarith
  case rank_falls =>
    intro job hjob parent hparent
    obtain ⟨upper, hupper, -, hchild⟩ := harranged.parent hjob hparent
    obtain rfl := harranged.id_eq hupper
    have hmem := Workflow.mem_of_job? hupper
    have htotal := (hup job hjob).2.1
    have hle := (hup upper hmem).2.2
      ((harranged.mem_totalsFrom hmem).2 (.inr ⟨job.id, hchild, _, htotal, rfl⟩))
    have hedge := hedges job hjob upper.id hparent
    dsimp only
    linarith

/-- The metrics of a drafted workflow on a drafted catalog tell its times. -/
theorem exists_tells [IsStrictOrderedRing K] (hcatalog : catalog.Drafted)
    (hworkflow : workflow.Drafted) (averaging : TransferAveraging) (speed : SpeedReference) :
    ∃ metrics times, ofWorkflow workflow catalog averaging speed = .ok metrics ∧
      metrics.Tells workflow times := by
  have harranged := hworkflow.arranged
  obtain ⟨metrics, hmetrics, -⟩ := ofWorkflow_eq_ok harranged catalog averaging speed
  obtain ⟨hestimates, hfinishes, hups, hdowns⟩ := passes_of_ofWorkflow hmetrics
  obtain ⟨w, c, hweighs, hweights, htransfers⟩ :=
    Estimates.exists_weighs hcatalog hworkflow averaging speed
  rw [← hestimates] at hweighs
  have hnonneg : ∀ id ∈ workflow.jobIds, 0 ≤ w id := by
    intro id hid
    obtain ⟨job, hjob, rfl⟩ := List.mem_map.1 hid
    exact (hweights job hjob).1
  have hfollows := followsPaths_of_weighs harranged hweighs hnonneg hfinishes hups hdowns
  have hedges : ∀ job ∈ workflow.jobs, ∀ parent ∈ job.parents, 0 ≤ c parent job.id := by
    intro job hjob parent hparent
    obtain ⟨upper, hupper, -⟩ := harranged.parent hjob hparent
    rw [← harranged.id_eq hupper]
    exact (htransfers job hjob upper (Workflow.mem_of_job? hupper)).1
  obtain ⟨times, htimes⟩ := hfollows.exists_tells harranged
    (fun job hjob => ⟨hweighs.weight job hjob, (hweights job hjob).1⟩) hedges
  exact ⟨metrics, times, hmetrics, htimes⟩

end Metrics

end WattPlan
