import Mathlib.Algebra.Order.BigOperators.Group.List
import WattPlan.Proofs.Pass.Completion
import WattPlan.Proofs.Pass.Timing

/-!
# How late a pass can finish

The workload of a workflow on a catalog adds up, over the jobs, the longest times of execution,
staging and transfer that a job can have. A job starts at the latest when its inputs are there and
all windows have ended, whatever is drawn, so each placement puts off the latest finish of a pass by
at most the longest time of its job (`Within.extend`). A complete pass thus finishes no later than
the workload after everything that was there before: `Solves.finishTime_le`.
-/

namespace WattPlan

open Exact

section Workload

variable {α : Type} [Scalar α]

namespace Catalog

/-- The time of a job at the slowest level of any node. -/
def longestExecution (catalog : Catalog α) (job : Job α) : α :=
  Scalar.maxFrom 0 ((catalog.nodes.flatMap Node.levels).map fun level =>
    level.execTime job.length)

/-- The longest time of staging the stored inputs of a job on a node. -/
def longestStaging (catalog : Catalog α) (job : Job α) : α :=
  Scalar.maxFrom 0 (catalog.nodes.map (catalog.stagingTime job))

/-- The longest time that the output of one parent of a job takes between two nodes. -/
def longestTransfer (catalog : Catalog α) (workflow : Workflow α) (job : Job α) : α :=
  Scalar.maxFrom 0 ((job.parents.filterMap workflow.job?).flatMap fun writer =>
    catalog.nodes.flatMap fun source => catalog.nodes.map fun target =>
      catalog.transferTime (job.dataFrom writer) source target)

/-- The longest time that a job can take. -/
def longestTime (catalog : Catalog α) (workflow : Workflow α) (job : Job α) : α :=
  catalog.longestExecution job + catalog.longestStaging job +
    catalog.longestTransfer workflow job

/-- The longest times of all jobs together. -/
def workload (catalog : Catalog α) (workflow : Workflow α) : α :=
  Scalar.sum (workflow.jobs.map (catalog.longestTime workflow))

end Catalog

end Workload

variable {K : Type} [Field K] [LinearOrder K] [IsStrictOrderedRing K] [FloorRing K]
  [Exponentials K]

section Times

variable {catalog : Catalog (Exact K)} {workflow : Workflow (Exact K)} {job : Job (Exact K)}

/-- The longest time of a job is finite and made up of bounds on its times. -/
theorem Catalog.Drafted.longestTime_finite (h : catalog.Drafted) (hmeasured : workflow.Measured)
    (hjob : job ∈ workflow.jobs) :
    ∃ e s t, catalog.longestTime workflow job = finite (e + s + t) ∧ 0 ≤ e ∧ 0 ≤ s ∧ 0 ≤ t ∧
      (∀ node ∈ catalog.nodes, ∀ level ∈ node.levels, level.execTime job.length ≤ finite e) ∧
      (∀ node ∈ catalog.nodes, catalog.stagingTime job node ≤ finite s) ∧
      ∀ parent ∈ job.parents, ∀ writer, workflow.job? parent = some writer →
        ∀ source ∈ catalog.nodes, ∀ target ∈ catalog.nodes,
          catalog.transferTime (job.dataFrom writer) source target ≤ finite t := by
  obtain ⟨e, hexecution, he, hlevels, -⟩ := maxFrom_finite
    ((catalog.nodes.flatMap Node.levels).map fun level => level.execTime job.length) (by
      intro time htime
      obtain ⟨level, hlevel, rfl⟩ := List.mem_map.1 htime
      obtain ⟨node, hnode, hlevel⟩ := List.mem_flatMap.1 hlevel
      obtain ⟨d, hd, -⟩ := h.execTime_amount hmeasured hjob hnode hlevel
      exact ⟨d, hd⟩) 0
  obtain ⟨s, hstaging, hs, hnodes, -⟩ := maxFrom_finite
    (catalog.nodes.map (catalog.stagingTime job)) (by
      intro time htime
      obtain ⟨node, -, rfl⟩ := List.mem_map.1 htime
      exact h.stagingTime_finite hmeasured hjob node) 0
  obtain ⟨t, htransfer, ht, htransfers, -⟩ := maxFrom_finite
    ((job.parents.filterMap workflow.job?).flatMap fun writer =>
      catalog.nodes.flatMap fun source => catalog.nodes.map fun target =>
        catalog.transferTime (job.dataFrom writer) source target) (by
      intro time htime
      simp only [List.mem_flatMap, List.mem_map] at htime
      obtain ⟨writer, -, source, -, target, -, rfl⟩ := htime
      exact h.transferTime_finite (hmeasured.dataFrom_finite hjob) source target) 0
  refine ⟨e, s, t, ?_, he, hs, ht, fun node hnode level hlevel => ?_, fun node hnode => ?_,
    fun parent hparent writer hwriter source hsource target htarget => ?_⟩
  · unfold Catalog.longestTime Catalog.longestExecution Catalog.longestStaging
      Catalog.longestTransfer
    rw [zero_eq, hexecution, hstaging, htransfer, add_finite, add_finite]
  · exact hlevels _ (List.mem_map_of_mem (List.mem_flatMap.2 ⟨node, hnode, hlevel⟩))
  · exact hnodes _ (List.mem_map_of_mem hnode)
  · have hmem : writer ∈ job.parents.filterMap workflow.job? :=
      List.mem_filterMap.2 ⟨parent, hparent, hwriter⟩
    exact htransfers _ (List.mem_flatMap.2 ⟨writer, hmem,
      List.mem_flatMap.2 ⟨source, hsource, List.mem_map_of_mem htarget⟩⟩)

end Times

namespace Problem

variable {problem : Problem (Exact K)} {job : Job (Exact K)}

/-- The longest time of the job of a number, 0 where there is no such job. -/
def load (problem : Problem (Exact K)) (id : JobId) : K :=
  (((problem.workflow.job? id).map
    (problem.catalog.longestTime problem.workflow)).map value).getD 0

/-- The longest time of a job is its load. -/
theorem Timed.longestTime_eq (h : problem.Timed) (hjob : job ∈ problem.workflow.jobs) :
    problem.catalog.longestTime problem.workflow job = finite (problem.load job.id) := by
  obtain ⟨e, s, t, hlongest, -⟩ := h.catalog.longestTime_finite h.measured hjob
  rw [load, h.arranged.job?_id hjob, Option.map_some, Option.map_some, Option.getD_some, hlongest]
  rfl

/-- No load is negative. -/
theorem Timed.load_nonneg (h : problem.Timed) (id : JobId) : 0 ≤ problem.load id := by
  unfold load
  cases hjob : problem.workflow.job? id with
  | none => exact le_rfl
  | some job =>
      obtain ⟨e, s, t, hlongest, he, hs, ht, -⟩ :=
        h.catalog.longestTime_finite h.measured (Workflow.mem_of_job? hjob)
      rw [Option.map_some, Option.map_some, Option.getD_some, hlongest]
      exact add_nonneg (add_nonneg he hs) ht

/-- Loads add up to something that is not negative. -/
theorem Timed.sum_load_nonneg (h : problem.Timed) (ids : List JobId) :
    0 ≤ (ids.map problem.load).sum := by
  refine List.sum_nonneg fun load hload => ?_
  obtain ⟨id, -, rfl⟩ := List.mem_map.1 hload
  exact h.load_nonneg id

/-- The workload is the sum of the loads of the jobs. -/
theorem Timed.workload_eq (h : problem.Timed) :
    problem.catalog.workload problem.workflow =
      finite (problem.workflow.jobIds.map problem.load).sum := by
  have hlongest : problem.workflow.jobs.map (problem.catalog.longestTime problem.workflow) =
      (problem.workflow.jobIds.map problem.load).map finite := by
    rw [Workflow.jobIds, List.map_map, List.map_map]
    exact List.map_congr_left fun job hjob => h.longestTime_eq hjob
  rw [Catalog.workload, hlongest, Scalar.sum, neg_zero_eq, foldl_add_finite, zero_add]

end Problem

namespace Pass

variable {problem : Problem (Exact K)} {pass : Pass (Exact K)} {timelines : Timelines (Exact K)}
  {job : Job (Exact K)} {request : Request (Exact K)} {candidate : Candidate (Exact K)}
  {solution : Solution (Exact K)} {latest : K}

/-- All inputs of a job are on a node, at the latest, its longest staging and transfer after
everything that was there before. -/
theorem Asks.readyTime_le (hasks : pass.Asks problem job request) (htimed : problem.Timed)
    (hfinishes : ∀ placement ∈ pass.placed, ∃ f, placement.finish = finite f ∧ f ≤ latest)
    (hsubmitted : problem.workflow.submittedAt ≤ finite latest)
    (hnodes : ∀ placement ∈ pass.placed, placement.node ∈ problem.catalog.nodes)
    (hjob : job ∈ problem.workflow.jobs) {node : Node (Exact K)}
    (hnode : node ∈ problem.catalog.nodes) {s t : K} (ht : 0 ≤ t)
    (hstaging : problem.catalog.stagingTime job node ≤ finite s)
    (htransfer : ∀ parent ∈ job.parents, ∀ writer, problem.workflow.job? parent = some writer →
      ∀ source ∈ problem.catalog.nodes,
        problem.catalog.transferTime (job.dataFrom writer) source node ≤ finite t) :
    ∃ r, request.readyTime node = finite r ∧ r ≤ latest + s + t := by
  obtain ⟨r, hready, -, -, hreach⟩ := hasks.readyTime_finite htimed
    (fun placement hplacement => (hfinishes placement hplacement).imp fun _ hf => hf.1) hjob hnode
  obtain ⟨y, hy⟩ := htimed.catalog.stagingTime_finite htimed.measured hjob node
  rw [hy, le_finite] at hstaging
  refine ⟨r, hready, ?_⟩
  rcases hreach with hreach | ⟨arrival, harrival, hreach⟩
  · obtain ⟨x, hx⟩ := htimed.submitted
    rw [hx, le_finite] at hsubmitted
    rw [hx, hy, add_finite] at hreach
    cases hreach
    linarith
  · obtain ⟨parent, hparent, hfrom⟩ := forall₂_exists_left hasks.arrivals_from harrival
    obtain ⟨placement, writer, hplacement, hwriter, rfl⟩ := arrivalFrom_eq_ok hfrom
    have hmem := (placement?_eq_some hplacement).1
    obtain ⟨f, hf, hle⟩ := hfinishes placement hmem
    have hdata : (job.dataFrom writer).IsFinite := htimed.measured.dataFrom_finite hjob
    obtain ⟨u, hu⟩ := htimed.catalog.transferTime_finite hdata placement.node node
    have hbound := htransfer parent hparent writer hwriter placement.node (hnodes placement hmem)
    rw [hu, le_finite] at hbound
    dsimp only at hreach
    rw [hf, hu, hy, add_finite, add_finite] at hreach
    cases hreach
    linarith

/-- Everything in a pass ends by an instant: all windows and all placements, which end from 0 on. -/
structure Within (pass : Pass (Exact K)) (latest : K) : Prop where
  windows : ∀ node, ∀ window ∈ (pass.timelines.ofNode node).windows,
    window.finish ≤ finite latest
  finishes : ∀ placement ∈ pass.placed, ∃ f, placement.finish = finite f ∧ 0 ≤ f ∧ f ≤ latest

/-- An offered candidate finishes, at the latest, the longest time of its job after everything that
was there before. -/
theorem Within.finish_le (h : pass.Within latest) (hlatest : 0 ≤ latest)
    (hasks : pass.Asks problem job request) (htimelines : request.timelines = pass.timelines)
    (htimed : problem.Timed) (hsubmitted : problem.workflow.submittedAt ≤ finite latest)
    (hnodes : ∀ placement ∈ pass.placed, placement.node ∈ problem.catalog.nodes)
    (hjob : job ∈ problem.workflow.jobs) (hoffers : request.Offers candidate) :
    ∃ f, candidate.finish = finite f ∧ 0 ≤ f ∧ f ≤ latest + problem.load job.id := by
  obtain ⟨node, hnode, level, hlevel, place, rfl⟩ := hasks.exists_evaluate hoffers
  obtain ⟨e, s, t, hlongest, he, hs, ht, hlevels, hstaging, htransfer⟩ :=
    htimed.catalog.longestTime_finite htimed.measured hjob
  obtain ⟨r, hready, hr⟩ := hasks.readyTime_le htimed
    (fun placement hplacement => (h.finishes placement hplacement).imp fun _ hf => ⟨hf.1, hf.2.2⟩)
    hsubmitted hnodes hjob hnode ht (hstaging node hnode)
    fun parent hparent writer hwriter source hsource =>
      htransfer parent hparent writer hwriter source hsource node hnode
  obtain ⟨d, hduration, hd⟩ := htimed.catalog.execTime_amount htimed.measured hjob hnode hlevel
  have hde := hlevels node hnode level hlevel
  rw [hduration, le_finite] at hde
  -- The job starts when its inputs are there and all windows have ended, or before.
  have hbusy : latest ≤ latest + s + t := by linarith
  obtain ⟨start, hprobe, hstart, hle⟩ := Timeline.exists_probe_eq (finite d)
    (hlatest.trans hbusy) hr fun window hwindow =>
      Exact.le_trans (h.windows node.id window hwindow) (le_finite.2 hbusy)
  rw [htimed.longestTime_eq hjob] at hlongest
  refine ⟨start + d, ?_, by linarith, ?_⟩
  · simp only [Request.evaluate, hasks.job_eq, hduration, hready, htimelines, hprobe, add_finite]
  · rw [show problem.load job.id = e + s + t from Exact.finite.inj hlongest]
    linarith

/-- Placing a job puts off the end of a pass by at most the longest time of the job. -/
theorem Within.extend (h : pass.Within latest) (hlatest : 0 ≤ latest) (htimed : problem.Timed)
    (hsubmitted : problem.workflow.submittedAt ≤ finite latest)
    (hnodes : ∀ placement ∈ pass.placed, placement.node ∈ problem.catalog.nodes)
    (hjob : job ∈ problem.workflow.jobs) (hrequest : pass.request problem job = .ok request)
    (hoffers : request.Offers candidate) :
    (pass.extend problem.workflow.id ⟨candidate, job.id⟩).Within
      (latest + problem.load job.id) := by
  obtain ⟨hasks, htimelines⟩ := asks_of_request hrequest
  obtain ⟨f, hfinish, hf, hle⟩ :=
    h.finish_le hlatest hasks htimelines htimed hsubmitted hnodes hjob hoffers
  have hlater : latest ≤ latest + problem.load job.id :=
    le_add_of_nonneg_right (htimed.load_nonneg job.id)
  constructor
  case windows =>
    intro node window hwindow
    rcases Timelines.mem_ofNode_insert hwindow with rfl | hold
    · show candidate.finish ≤ _
      rw [hfinish, le_finite]
      exact hle
    · exact Exact.le_trans (h.windows node window hold) (le_finite.2 hlater)
  case finishes =>
    intro placement hplacement
    rcases List.mem_append.1 hplacement with hplacement | hplacement
    · obtain ⟨g, hg, hpos, hbefore⟩ := h.finishes placement hplacement
      exact ⟨g, hg, hpos, hbefore.trans hlater⟩
    · rw [List.mem_singleton.1 hplacement]
      exact ⟨f, hfinish, hf, hle⟩

/-- A pass that is reached ends, at the latest, the loads of the placed jobs after everything that
was there before. -/
theorem Reached.within (h : Reached problem timelines pass) (htimed : problem.Timed)
    (hlatest : 0 ≤ latest) (hsubmitted : problem.workflow.submittedAt ≤ finite latest)
    (hwindows : ∀ node, ∀ window ∈ (timelines.ofNode node).windows,
      window.finish ≤ finite latest) :
    pass.Within (latest + (pass.commitOrder.map problem.load).sum) := by
  refine h.preserves (P := fun pass =>
    pass.Within (latest + (pass.commitOrder.map problem.load).sum)) ?_ ?_
  · rw [Pass.start, commitOrder, List.map_nil, List.map_nil, List.sum_nil, add_zero]
    exact ⟨hwindows, by simp⟩
  · intro pass job request candidate hreached ih hjob _ hrequest hoffers
    have hlater : latest ≤ latest + (pass.commitOrder.map problem.load).sum :=
      le_add_of_nonneg_right (htimed.sum_load_nonneg pass.commitOrder)
    have hnext := ih.extend (hlatest.trans hlater) htimed
      (Exact.le_trans hsubmitted (le_finite.2 hlater)) hreached.mem_nodes hjob hrequest hoffers
    show Within _ (latest + ((commitOrder ⟨_, pass.placed ++ [_]⟩).map problem.load).sum)
    rw [commitOrder_snoc, List.map_append, List.sum_append, List.map_singleton, List.sum_singleton,
      ← add_assoc]
    exact hnext

/-- A solution finishes, at the latest, the workload after everything that was there before. -/
theorem Solves.finishTime_le (h : Solves problem timelines solution) (htimed : problem.Timed)
    (hlatest : 0 ≤ latest) (hsubmitted : problem.workflow.submittedAt ≤ finite latest)
    (hwindows : ∀ node, ∀ window ∈ (timelines.ofNode node).windows,
      window.finish ≤ finite latest) :
    solution.finishTime ≤ finite latest + problem.catalog.workload problem.workflow := by
  obtain ⟨pass, hreached, hall, hsolution⟩ := h
  obtain ⟨placements, -, rfl⟩ := solution_eq_ok hsolution
  have hwithin := hreached.within htimed hlatest hsubmitted hwindows
  rw [(hall.map problem.load).sum_eq] at hwithin
  rw [htimed.workload_eq, add_finite]
  refine Exact.maxFrom_le ?_ fun finish hfinish => ?_
  · rw [zero_eq, le_finite]
    exact add_nonneg hlatest (htimed.sum_load_nonneg _)
  · obtain ⟨placement, hplacement, rfl⟩ := List.mem_map.1 hfinish
    obtain ⟨f, hf, -, hle⟩ := hwithin.finishes placement hplacement
    rw [hf, le_finite]
    exact hle

end Pass

end WattPlan
