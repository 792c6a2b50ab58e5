import WattPlan.Proofs.Deadline.Portions

/-!
# Deadline plans under the four rules

Whatever the rule and the slack factor, levelling makes a well-formed plan: sub-deadlines do not
fall along a dependency, none lies behind the deadline, and the last jobs have the deadline itself
(`DeadlinePlan.wellFormed_ofWorkflow`). Where the slack factor is not negative, the shares of the
rules are already in this order, so every other job has just the sub-deadline that its rule states
(`DeadlinePlan.subDeadlines_of_rules`).
-/

namespace WattPlan

open Exact

namespace DeadlinePlan

variable {K : Type} [Field K] [LinearOrder K] [FloorRing K] [Exponentials K]
  {workflow : Workflow (Exact K)} {metrics : Metrics (Exact K)} {times : JobTimes K}
  {catalog : Catalog (Exact K)} {job : Job (Exact K)} {base slackFactor : K}

/-- A deadline plan is well formed. The deadline is the length of the critical path after the base,
stretched by the slack factor; no sub-deadline lies before that of a parent or behind the deadline,
which is the sub-deadline of the jobs without children; and if the slack factor is not negative, no
sub-deadline lies before the earliest finish. -/
structure WellFormed (plan : DeadlinePlan (Exact K)) (workflow : Workflow (Exact K))
    (metrics : Metrics (Exact K)) (base slackFactor : K) : Prop where
  deadline_eq : plan.deadline = finite base + metrics.criticalPath * (1 + finite slackFactor)
  isFinite : ∀ job ∈ workflow.jobs, (plan.subDeadline job.id).IsFinite
  parent_le : ∀ job ∈ workflow.jobs, ∀ parent ∈ job.parents,
    plan.subDeadline parent ≤ plan.subDeadline job.id
  le_deadline : ∀ job ∈ workflow.jobs, plan.subDeadline job.id ≤ plan.deadline
  sink_eq : ∀ job ∈ workflow.sinks, plan.subDeadline job.id = plan.deadline
  finish_le : 0 ≤ slackFactor → ∀ job ∈ workflow.jobs,
    finite base + metrics.earliestFinish job.id ≤ plan.subDeadline job.id

/-- The sub-deadlines of a job that the rules state: its earliest finish after the base, and of the
slack beyond the critical path what is proportional to the earliest finish, to the levels of depth
up to the job, to the way that is behind it when it is done, or to its place by descending upward
rank. For the place every job has to weigh something. -/
structure Stated (workflow : Workflow (Exact K)) (metrics : Metrics (Exact K)) (times : JobTimes K)
    (base slackFactor : K) (job : Job (Exact K)) : Prop where
  eftScaled : (ofWorkflow workflow metrics (finite base) (finite slackFactor)
    .eftScaled).subDeadline job.id = finite (base + times.finish job.id * (1 + slackFactor))
  depthShare : (ofWorkflow workflow metrics (finite base) (finite slackFactor)
    .depthShare).subDeadline job.id =
      finite (base + times.finish job.id +
        times.longest * slackFactor * (job.depth + 1) / (workflow.maxDepth + 1))
  rankShare : times.longest ≠ 0 → (ofWorkflow workflow metrics (finite base) (finite slackFactor)
    .rankShare).subDeadline job.id =
      finite (base + times.finish job.id +
        (times.longest - times.rank job.id + times.weight job.id) * (times.longest * slackFactor) /
          times.longest)
  rankShare_zero : times.longest = 0 → (ofWorkflow workflow metrics (finite base)
    (finite slackFactor) .rankShare).subDeadline job.id = finite (base + times.finish job.id)
  positionShare : (∀ job ∈ workflow.jobs, 0 < times.weight job.id) → ∀ place : Nat,
    (metrics.byUpwardRank workflow)[place]? = some job.id →
      (ofWorkflow workflow metrics (finite base) (finite slackFactor)
        .positionShare).subDeadline job.id =
          finite (base + times.finish job.id +
            (place + 1) * (times.longest * slackFactor) / workflow.jobs.length)

/-- The deadline as a number. -/
theorem deadline_eq (h : metrics.Tells workflow times) (base slackFactor : K)
    (rule : SubDeadlineRule) :
    (ofWorkflow workflow metrics (finite base) (finite slackFactor) rule).deadline =
      finite (base + times.longest + times.longest * slackFactor) := by
  simp [ofWorkflow, h.criticalPath]

variable [IsStrictOrderedRing K]

/-- Without a negative slack factor, the share of a job lies between its earliest finish and the
deadline. -/
theorem share_bounds (h : metrics.Tells workflow times) (hjob : job ∈ workflow.jobs)
    (hslack : 0 ≤ slackFactor) (base : K) (rule : SubDeadlineRule) :
    base + times.finish job.id ≤ base + times.finish job.id +
        portion times workflow (metrics.byUpwardRank workflow) job rule *
          (times.longest * slackFactor) ∧
      base + times.finish job.id +
        portion times workflow (metrics.byUpwardRank workflow) job rule *
          (times.longest * slackFactor) ≤ base + times.longest + times.longest * slackFactor := by
  have hamount := mul_nonneg (h.longest_nonneg hjob) hslack
  have hlow := mul_nonneg (portion_nonneg h hjob (metrics.byUpwardRank workflow) rule) hamount
  have hhigh := mul_le_of_le_one_left hamount (portion_le_one h hjob rule)
  have hfinish := h.finish_le job hjob
  constructor <;> linarith

/-- A job that something comes after has its share as its sub-deadline, if the slack factor is not
negative. For the place by upward rank every job has to weigh something. -/
theorem subDeadline_eq_portion (h : metrics.Tells workflow times) (harranged : workflow.Arranged)
    (hslack : 0 ≤ slackFactor) {rule : SubDeadlineRule}
    (hweights : rule = .positionShare → ∀ job ∈ workflow.jobs, 0 < times.weight job.id)
    (hjob : job ∈ workflow.jobs) (hchildren : job.children ≠ []) (base : K) :
    (ofWorkflow workflow metrics (finite base) (finite slackFactor) rule).subDeadline job.id =
      finite (base + times.finish job.id +
        portion times workflow (metrics.byUpwardRank workflow) job rule *
          (times.longest * slackFactor)) := by
  -- Levelling looks jobs up by number.
  let share (id : JobId) : K :=
    ((shares workflow metrics (finite base) (finite slackFactor) rule).getD id 0).value
  have hshare : ∀ job ∈ workflow.jobs, share job.id = base + times.finish job.id +
      portion times workflow (metrics.byUpwardRank workflow) job rule *
        (times.longest * slackFactor) := by
    intro job hjob
    simp only [share, share_eq h harranged hjob]
    rfl
  rw [← hshare job hjob]
  refine subDeadline_eq_share harranged (deadline_eq h base slackFactor rule) ?_ ?_ ?_ hjob
    hchildren
  · intro job hjob
    rw [share_eq h harranged hjob, hshare job hjob]
  · intro job hjob
    rw [hshare job hjob]
    exact (share_bounds h hjob hslack base rule).2
  · intro job hjob parent hparent
    obtain ⟨upper, hupper, -⟩ := harranged.parent hjob hparent
    obtain rfl := harranged.id_eq hupper
    have hmem := Workflow.mem_of_job? hupper
    rw [hshare job hjob, hshare upper hmem]
    have hportion := mul_le_mul_of_nonneg_right
      (portion_mono h harranged hweights hjob hmem hparent)
      (mul_nonneg (h.longest_nonneg hjob) hslack)
    have hfinish := h.finish_grows job hjob upper.id hparent
    have hweight := h.weight_nonneg job hjob
    linarith

/-- The deadline plan of a drafted workflow on a drafted catalog is well formed. -/
theorem wellFormed_ofWorkflow (hcatalog : catalog.Drafted) (hworkflow : workflow.Drafted)
    (averaging : TransferAveraging) (speed : SpeedReference) :
    ∃ metrics, Metrics.ofWorkflow workflow catalog averaging speed = .ok metrics ∧
      ∀ (base slackFactor : K) (rule : SubDeadlineRule),
        (ofWorkflow workflow metrics (finite base) (finite slackFactor) rule).WellFormed
          workflow metrics base slackFactor := by
  have harranged := hworkflow.arranged
  obtain ⟨metrics, times, hmetrics, h⟩ := Metrics.exists_tells hcatalog hworkflow averaging speed
  refine ⟨metrics, hmetrics, fun base slackFactor rule => ?_⟩
  have hdeadline := deadline_eq h base slackFactor rule
  constructor
  case deadline_eq =>
    rw [hdeadline, h.criticalPath, one_eq, add_finite, mul_finite, add_finite]
    congr 1
    ring
  case isFinite =>
    intro job hjob
    have hshare := share_eq h harranged hjob base slackFactor rule
    obtain ⟨z, hz, -⟩ := exists_eq_finite
      (le_subDeadline harranged hdeadline hjob (le_finite.2 (min_le_right _ _))
        (by rw [hshare]; exact le_finite.2 (min_le_left _ _)))
      (subDeadline_le harranged hdeadline (List.mem_map_of_mem hjob))
    exact ⟨z, hz⟩
  case parent_le => exact fun job hjob parent => parent_le harranged hdeadline hjob
  case le_deadline =>
    intro job hjob
    rw [hdeadline]
    exact subDeadline_le harranged hdeadline (List.mem_map_of_mem hjob)
  case sink_eq =>
    intro job hsink
    obtain ⟨hjob, hempty⟩ := List.mem_filter.1 hsink
    rw [subDeadline_eq harranged hjob, levelled, if_pos hempty]
  case finish_le =>
    intro hslack job hjob
    obtain ⟨hlow, hhigh⟩ := share_bounds h hjob hslack base rule
    rw [h.earliestFinish job hjob, add_finite]
    refine le_subDeadline harranged hdeadline hjob (le_finite.2 (hlow.trans hhigh)) ?_
    rw [share_eq h harranged hjob]
    exact le_finite.2 hlow

end DeadlinePlan

namespace Shortcut

open WithoutExponentials

/-- A deadline far before the end of the critical path is the sub-deadline of the first job too. -/
theorem wellFormed_before_end : ThreeNodes.catalog.Drafted ∧ workflow.Drafted ∧
    ∃ (metrics : Metrics (Exact ℚ)) (plan : DeadlinePlan (Exact ℚ)),
      Metrics.ofWorkflow workflow ThreeNodes.catalog .nodePairs .mean = .ok metrics ∧
      plan = .ofWorkflow workflow metrics (finite 10) (finite (-3 / 2)) .depthShare ∧
      plan.WellFormed workflow metrics 10 (-3 / 2) ∧ plan.deadline = finite 7 ∧
      plan.subDeadline 0 = finite 7 := by
  obtain ⟨metrics, hmetrics, hplans⟩ := DeadlinePlan.wellFormed_ofWorkflow
    ThreeNodes.catalog_drafted workflow_drafted .nodePairs .mean
  have hplan := hplans 10 (-3 / 2) .depthShare
  have hvalues : (Metrics.ofWorkflow workflow ThreeNodes.catalog .nodePairs .mean).toOption.map
      (fun metrics => (DeadlinePlan.ofWorkflow workflow metrics (finite 10) (finite (-3 / 2))
        .depthShare).subDeadlines) = some [finite 7, finite 7, finite 7] := by
    decide +kernel
  simp only [hmetrics, Except.toOption, Option.map_some, Option.some.injEq] at hvalues
  have hlast := hplan.sink_eq _ (show _ ∈ workflow.sinks from List.mem_singleton_self _)
  refine ⟨ThreeNodes.catalog_drafted, workflow_drafted, metrics, _, hmetrics, rfl, hplan, ?_, ?_⟩
  · rw [← hlast, DeadlinePlan.subDeadline, hvalues]
    rfl
  · rw [DeadlinePlan.subDeadline, hvalues]
    rfl

end Shortcut

namespace DeadlinePlan

variable {K : Type} [Field K] [LinearOrder K] [IsStrictOrderedRing K] [FloorRing K] [Exponentials K]
  {workflow : Workflow (Exact K)} {catalog : Catalog (Exact K)}

/-- On a drafted catalog, and if the slack factor is not negative, levelling leaves the
sub-deadlines that the rules state to all jobs of a drafted workflow that something comes after.
The order by upward rank has all jobs, those of equal rank by number. -/
theorem subDeadlines_of_rules (hcatalog : catalog.Drafted) (hworkflow : workflow.Drafted)
    (averaging : TransferAveraging) (speed : SpeedReference) :
    ∃ metrics times, Metrics.ofWorkflow workflow catalog averaging speed = .ok metrics ∧
      metrics.Tells workflow times ∧ (metrics.byUpwardRank workflow).Perm workflow.jobIds ∧
      ((metrics.byUpwardRank workflow).Pairwise fun a b =>
        times.rank b < times.rank a ∨ times.rank a = times.rank b ∧ a < b) ∧
      ∀ base slackFactor : K, 0 ≤ slackFactor → ∀ job ∈ workflow.jobs, job.children ≠ [] →
        Stated workflow metrics times base slackFactor job := by
  have harranged := hworkflow.arranged
  obtain ⟨metrics, times, hmetrics, h⟩ := Metrics.exists_tells hcatalog hworkflow averaging speed
  refine ⟨metrics, times, hmetrics, h, metrics.byUpwardRank_perm, h.byUpwardRank_pairwise harranged,
    fun base slackFactor hslack job hjob hchildren => ?_⟩
  have hportion (rule : SubDeadlineRule) (hrule : rule ≠ .positionShare) :=
    subDeadline_eq_portion h harranged hslack (fun heq => absurd heq hrule) hjob hchildren base
  constructor
  case eftScaled =>
    rw [hportion .eftScaled (by decide), portion, ← mul_assoc, h.finish_div_mul_longest hjob]
    congr 1
    ring
  case depthShare =>
    rw [hportion .depthShare (by decide), portion, Nat.cast_succ, Nat.cast_succ]
    congr 1
    ring
  case rankShare =>
    intro hne
    rw [hportion .rankShare (by decide), portion]
    congr 1
    ring
  case rankShare_zero =>
    intro hzero
    rw [hportion .rankShare (by decide), hzero, zero_mul, mul_zero, add_zero]
  case positionShare =>
    intro hweights place hplace
    obtain ⟨hlt, hid⟩ := List.getElem?_eq_some_iff.1 hplace
    have hnodup := metrics.byUpwardRank_perm.nodup_iff.2 harranged.nodup_jobIds
    have hidx : (metrics.byUpwardRank workflow).idxOf job.id = place := by
      rw [← hid, hnodup.idxOf_getElem]
    rw [subDeadline_eq_portion h harranged hslack (fun _ => hweights) hjob hchildren, portion, hidx,
      Nat.cast_succ]
    congr 1
    ring

end DeadlinePlan

namespace Shortcut

open WithoutExponentials

/-- The second job is done 11/3 of 6 seconds after the base. Of 3 seconds of slack it gets a part
that is as large, or two of three parts by depth and by its place, or five of six by its rank. -/
theorem second_gets_stated : ThreeNodes.catalog.Drafted ∧ workflow.Drafted ∧ (0 : ℚ) ≤ 1 / 2 ∧
    ∃ (metrics : Metrics (Exact ℚ)) (times : JobTimes ℚ),
      Metrics.ofWorkflow workflow ThreeNodes.catalog .nodePairs .mean = .ok metrics ∧
      metrics.Tells workflow times ∧ times.longest = 6 ∧ times.finish 1 = 11 / 3 ∧
      (∀ job ∈ workflow.jobs, 0 < times.weight job.id) ∧
      ∀ rule, (DeadlinePlan.ofWorkflow workflow metrics (finite 10) (finite (1 / 2))
        rule).subDeadline 1 = match rule with
          | .eftScaled => finite (10 + 11 / 3 * (3 / 2))
          | .depthShare | .positionShare => finite (10 + 11 / 3 + 2)
          | .rankShare => finite (10 + 11 / 3 + 5 / 2) := by
  obtain ⟨metrics, times, hmetrics, htimes, -, -, hstated⟩ := DeadlinePlan.subDeadlines_of_rules
    ThreeNodes.catalog_drafted workflow_drafted .nodePairs .mean
  have hvalues : (Metrics.ofWorkflow workflow ThreeNodes.catalog .nodePairs .mean).toOption.map
      (fun metrics => ([metrics.criticalPath, metrics.earliestFinish 1],
        metrics.upwardRanks, workflow.jobs.map metrics.weight)) =
          some ([finite 6, finite (11 / 3)], [finite 6, finite 3, finite 1],
            [finite 1, finite 2, finite 1]) := by
    decide +kernel
  simp only [hmetrics, Except.toOption, Option.map_some, Option.some.injEq, Prod.mk.injEq,
    List.cons.injEq, and_true] at hvalues
  obtain ⟨⟨hpath, hfinish⟩, hranks, hweights⟩ := hvalues
  have hmem : (⟨1, "sort", finite 6, 1, [0], [2], [], [⟨"index", finite 15, none⟩], [], none⟩ :
      Job (Exact ℚ)) ∈ workflow.jobs := List.mem_cons_of_mem _ List.mem_cons_self
  rw [htimes.criticalPath, finite.injEq] at hpath
  rw [htimes.earliestFinish _ hmem, finite.injEq] at hfinish
  have hplaces : metrics.byUpwardRank workflow = [0, 1, 2] := by
    refine List.mergeSort_of_pairwise ?_
    simp only [Metrics.upwardRank, hranks]
    decide +kernel
  have hrank : times.rank 1 = 3 := by
    have hread := htimes.upwardRank _ hmem
    rw [Metrics.upwardRank, hranks] at hread
    exact (finite.inj hread).symm
  rw [List.map_congr_left htimes.weight] at hweights
  simp only [workflow, List.map_cons, List.map_nil, List.cons.injEq, finite.injEq, and_true]
    at hweights
  obtain ⟨hzeroth, hfirst, hsecond⟩ := hweights
  have hpositive : ∀ job ∈ workflow.jobs, 0 < times.weight job.id := by
    simp [workflow, hzeroth, hfirst, hsecond]
  have hjob := hstated 10 (1 / 2) (by norm_num) _ hmem (List.cons_ne_nil _ _)
  refine ⟨ThreeNodes.catalog_drafted, workflow_drafted, by norm_num, metrics, times, hmetrics,
    htimes, hpath, hfinish, hpositive, fun rule => ?_⟩
  cases rule with
  | eftScaled =>
      refine hjob.eftScaled.trans ?_
      simp only [hfinish]
      norm_num
  | depthShare =>
      refine hjob.depthShare.trans ?_
      simp only [hfinish, hpath]
      norm_num [workflow, Workflow.maxDepth]
  | rankShare =>
      refine (hjob.rankShare (by rw [hpath]; norm_num)).trans ?_
      simp only [hfinish, hpath, hrank, hfirst]
      norm_num
  | positionShare =>
      refine (hjob.positionShare hpositive 1 (by rw [hplaces]; rfl)).trans ?_
      simp only [hfinish, hpath]
      norm_num [workflow]

end Shortcut

end WattPlan
