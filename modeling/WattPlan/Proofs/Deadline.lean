import WattPlan.Deadline
import WattPlan.Proofs.Durations

/-!
# Levelled sub-deadlines

Levelling a job sets its sub-deadline and leaves the others. In the order by depth every job is
levelled once, after its parents, so the sub-deadlines that come out of it solve one equation for
each job (`DeadlinePlan.subDeadline_eq`). Over exact quantities none of them lies behind the
deadline (`DeadlinePlan.subDeadline_le`) or before that of a parent (`DeadlinePlan.parent_le`).
-/

namespace WattPlan

open Exact

namespace DeadlinePlan

section Tables

variable {α : Type} [Scalar α] {workflow : Workflow α} {metrics : Metrics α} {deadline : α}
  {job : Job α}

/-- Levelling leaves the number of sub-deadlines. -/
theorem length_levelJob (deadline : α) (shares : List α) (id : JobId) :
    (levelJob workflow deadline shares id).length = shares.length := by
  unfold levelJob
  split
  · rfl
  · split <;> simp

/-- Levelling some jobs leaves the number of sub-deadlines. -/
theorem length_foldl_levelJob (deadline : α) (shares : List α) (ids : List JobId) :
    (ids.foldl (levelJob workflow deadline) shares).length = shares.length := by
  induction ids generalizing shares with
  | nil => rfl
  | cons id rest ih => exact (ih _).trans (length_levelJob deadline shares id)

/-- Levelling a job leaves the sub-deadlines of the others. -/
theorem levelJob_of_ne {shares : List α} {id other : JobId} (h : id ≠ other) :
    (levelJob workflow deadline shares id).getD other 0 = shares.getD other 0 := by
  unfold levelJob
  split
  · rfl
  · split <;> simp only [List.getD_eq_getElem?_getD, List.getElem?_set_ne h]

/-- Levelling some jobs leaves the sub-deadlines of the others. -/
theorem foldl_levelJob_of_notMem {shares : List α} {ids : List JobId} {other : JobId}
    (h : other ∉ ids) :
    (ids.foldl (levelJob workflow deadline) shares).getD other 0 = shares.getD other 0 := by
  induction ids generalizing shares with
  | nil => rfl
  | cons id rest ih =>
      rw [List.mem_cons, not_or] at h
      rw [List.foldl_cons, ih h.2, levelJob_of_ne (Ne.symm h.1)]

/-- What levelling gives a job of a share: the deadline if nothing comes after it, else the share,
but not less than its parents have and not more than the deadline. -/
def levelled (job : Job α) (deadline share : α) (subDeadlineOf : JobId → α) : α :=
  if job.children.isEmpty then deadline
  else Scalar.min
    (Scalar.max share (Scalar.maxFrom (-Scalar.infinity) (job.parents.map subDeadlineOf))) deadline

/-- Levelling a job looks at its own sub-deadline so far and at those of its parents. -/
theorem levelJob_self {shares : List α} (hjob : workflow.job? job.id = some job)
    (hid : job.id < shares.length) :
    (levelJob workflow deadline shares job.id).getD job.id 0 =
      levelled job deadline (shares.getD job.id 0) fun parent => shares.getD parent 0 := by
  simp only [levelJob, hjob, levelled]
  split <;> simp [List.getD_eq_getElem?_getD, hid]

/-- Every rule gives each job a share. -/
theorem length_shares (base slackFactor : α) (rule : SubDeadlineRule) :
    (shares workflow metrics base slackFactor rule).length = workflow.jobs.length := by
  cases rule <;> simp [shares]

/-- Each job has a sub-deadline. -/
theorem length_subDeadlines (base slackFactor : α) (rule : SubDeadlineRule) :
    (ofWorkflow workflow metrics base slackFactor rule).subDeadlines.length =
      workflow.jobs.length :=
  (length_foldl_levelJob _ _ _).trans (length_shares base slackFactor rule)

/-- Once all jobs are levelled by depth, each of them has what levelling gives it of its share when
its parents have theirs. -/
theorem foldl_levelJob_depthOrder (h : workflow.Arranged) (hjob : job ∈ workflow.jobs)
    (deadline : α) {shares : List α} (hlength : shares.length = workflow.jobs.length) :
    (workflow.depthOrder.foldl (levelJob workflow deadline) shares).getD job.id 0 =
      levelled job deadline (shares.getD job.id 0) fun parent =>
        (workflow.depthOrder.foldl (levelJob workflow deadline) shares).getD parent 0 := by
  have hmem : job.id ∈ workflow.jobIds := List.mem_map_of_mem hjob
  obtain ⟨before, after, hsplit⟩ :=
    List.append_of_mem (workflow.depthOrder_perm.mem_iff.2 hmem)
  have hnodup : (before ++ job.id :: after).Nodup := by
    rw [← hsplit]
    exact workflow.depthOrder_perm.nodup_iff.2 h.nodup_jobIds
  obtain ⟨-, hrest, hdisjoint⟩ := List.nodup_append.1 hnodup
  have hbefore : job.id ∉ before := fun hin => hdisjoint _ hin _ List.mem_cons_self rfl
  have hafter : job.id ∉ after := (List.nodup_cons.1 hrest).1
  -- The parents are levelled before the job, and not again.
  have hparents : ∀ parent ∈ job.parents, parent ∉ job.id :: after := by
    intro parent hparent hin
    rw [← h.parentsOf_id hjob] at hparent
    exact hdisjoint _ (h.depthOrder_respects_parents before job.id after hsplit parent hparent) _
      hin rfl
  have hid : job.id < (before.foldl (levelJob workflow deadline) shares).length := by
    rw [length_foldl_levelJob, hlength]
    exact h.mem_jobIds.1 hmem
  rw [hsplit, List.foldl_append, List.foldl_cons, foldl_levelJob_of_notMem hafter,
    levelJob_self (h.job?_id hjob) hid, foldl_levelJob_of_notMem hbefore, levelled, levelled]
  have hsame : job.parents.map (fun parent =>
      (before.foldl (levelJob workflow deadline) shares).getD parent 0) =
      job.parents.map fun parent => (after.foldl (levelJob workflow deadline)
        (levelJob workflow deadline (before.foldl (levelJob workflow deadline) shares)
          job.id)).getD parent 0 := by
    refine List.map_congr_left fun parent hparent => ?_
    rw [← List.foldl_cons, foldl_levelJob_of_notMem (hparents parent hparent)]
  rw [hsame]

/-- The sub-deadline of a job is what levelling gives it of its share when its parents have
theirs. -/
theorem subDeadline_eq (h : workflow.Arranged) (hjob : job ∈ workflow.jobs)
    (base slackFactor : α) (rule : SubDeadlineRule) :
    (ofWorkflow workflow metrics base slackFactor rule).subDeadline job.id =
      levelled job (ofWorkflow workflow metrics base slackFactor rule).deadline
        ((shares workflow metrics base slackFactor rule).getD job.id 0)
        (ofWorkflow workflow metrics base slackFactor rule).subDeadline :=
  foldl_levelJob_depthOrder h hjob _ (length_shares base slackFactor rule)

end Tables

variable {K : Type} [Field K] [LinearOrder K] [FloorRing K] [Exponentials K]
  {workflow : Workflow (Exact K)} {metrics : Metrics (Exact K)} {job : Job (Exact K)}

/-- The deadline is finite if the critical path is. -/
theorem deadline_finite (hpath : metrics.criticalPath.IsFinite) (base slackFactor : K)
    (rule : SubDeadlineRule) :
    (ofWorkflow workflow metrics (finite base) (finite slackFactor) rule).deadline.IsFinite := by
  obtain ⟨c, hc⟩ := hpath
  refine ⟨base + c + c * slackFactor, ?_⟩
  simp [ofWorkflow, hc]

/-- A job that is levelled has no sub-deadline behind the deadline. -/
theorem levelled_le {share : Exact K} {subDeadlineOf : JobId → Exact K} {y : K} :
    levelled job (finite y) share subDeadlineOf ≤ finite y := by
  unfold levelled
  split
  · exact le_finite.2 le_rfl
  · exact Exact.min_le_of_right (le_finite.2 le_rfl)

/-- What is at most the deadline, and at most the share or the sub-deadline of a parent, is at most
what levelling gives a job. -/
theorem le_levelled {share a : Exact K} {subDeadlineOf : JobId → Exact K} {y : K}
    (hdeadline : a ≤ finite y) (h : a ≤ share ∨ ∃ parent ∈ job.parents, a ≤ subDeadlineOf parent) :
    a ≤ levelled job (finite y) share subDeadlineOf := by
  unfold levelled
  split
  · exact hdeadline
  · refine Exact.le_min ?_ hdeadline
    rcases h with h | ⟨parent, hparent, h⟩
    · exact Exact.le_max_left h
    · exact Exact.le_max_right (Exact.le_maxFrom (.inr ⟨_, List.mem_map_of_mem hparent, h⟩))

section Plan

variable {base slackFactor : Exact K} {rule : SubDeadlineRule} {y : K}

/-- No job has a sub-deadline behind a finite deadline. -/
theorem subDeadline_le (h : workflow.Arranged)
    (hdeadline : (ofWorkflow workflow metrics base slackFactor rule).deadline = finite y)
    {id : JobId} (hid : id ∈ workflow.jobIds) :
    (ofWorkflow workflow metrics base slackFactor rule).subDeadline id ≤ finite y := by
  obtain ⟨job, hjob, rfl⟩ := List.mem_map.1 hid
  rw [subDeadline_eq h hjob, hdeadline]
  exact levelled_le

/-- What is at most a finite deadline and the share of a job is at most its sub-deadline. -/
theorem le_subDeadline (h : workflow.Arranged)
    (hdeadline : (ofWorkflow workflow metrics base slackFactor rule).deadline = finite y)
    (hjob : job ∈ workflow.jobs) {a : Exact K} (hle : a ≤ finite y)
    (hshare : a ≤ (shares workflow metrics base slackFactor rule).getD job.id 0) :
    a ≤ (ofWorkflow workflow metrics base slackFactor rule).subDeadline job.id := by
  rw [subDeadline_eq h hjob, hdeadline]
  exact le_levelled hle (.inl hshare)

/-- No job has a sub-deadline before that of a parent. -/
theorem parent_le (h : workflow.Arranged)
    (hdeadline : (ofWorkflow workflow metrics base slackFactor rule).deadline = finite y)
    (hjob : job ∈ workflow.jobs) {parent : JobId} (hparent : parent ∈ job.parents) :
    (ofWorkflow workflow metrics base slackFactor rule).subDeadline parent ≤
      (ofWorkflow workflow metrics base slackFactor rule).subDeadline job.id := by
  obtain ⟨upper, hupper, -⟩ := h.parent hjob hparent
  rw [← h.id_eq hupper] at hparent ⊢
  have hle := subDeadline_le h hdeadline (List.mem_map_of_mem (Workflow.mem_of_job? hupper))
  rw [subDeadline_eq h hjob, hdeadline]
  exact le_levelled hle (.inr ⟨_, hparent, Exact.le_self_of_le hle⟩)

/-- Where no share lies behind the deadline or before that of a parent, levelling leaves the shares
of the jobs that something comes after. -/
theorem subDeadline_eq_share (h : workflow.Arranged)
    (hdeadline : (ofWorkflow workflow metrics base slackFactor rule).deadline = finite y)
    {share : JobId → K} (hshare : ∀ job ∈ workflow.jobs,
      (shares workflow metrics base slackFactor rule).getD job.id 0 = finite (share job.id))
    (hle : ∀ job ∈ workflow.jobs, share job.id ≤ y)
    (hmono : ∀ job ∈ workflow.jobs, ∀ parent ∈ job.parents, share parent ≤ share job.id)
    (hjob : job ∈ workflow.jobs) (hchildren : job.children ≠ []) :
    (ofWorkflow workflow metrics base slackFactor rule).subDeadline job.id =
      finite (share job.id) := by
  -- Parents have smaller depths, and the job comes after them.
  induction hdepth : job.depth using Nat.strong_induction_on generalizing job with
  | _ depth ih =>
      have hparents : ∀ a ∈ job.parents.map
          (ofWorkflow workflow metrics base slackFactor rule).subDeadline,
          a ≤ finite (share job.id) := by
        intro a ha
        obtain ⟨parent, hparent, rfl⟩ := List.mem_map.1 ha
        obtain ⟨upper, hupper, hlt, hchild⟩ := h.parent hjob hparent
        obtain rfl := h.id_eq hupper
        rw [ih upper.depth (hdepth ▸ hlt) (Workflow.mem_of_job? hupper) (List.ne_nil_of_mem hchild)
          rfl]
        exact le_finite.2 (hmono job hjob upper.id hparent)
      have hlowest : (-Scalar.infinity : Exact K) ≤ finite (share job.id) := True.intro
      have hfloor := Exact.maxFrom_le hlowest hparents
      rw [subDeadline_eq h hjob, hdeadline, hshare job hjob, levelled,
        if_neg (by simpa using hchildren), Exact.max_eq_left hfloor,
        Exact.min_eq_left (le_finite.2 (hle job hjob))]

end Plan

end DeadlinePlan

end WattPlan
