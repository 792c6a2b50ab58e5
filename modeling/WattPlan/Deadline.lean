import WattPlan.Metrics

/-!
# Deadlines

The deadline of a workflow is the length of its critical path after a base time, stretched by a
slack factor. A rule hands every job a part of the slack, which gives it a sub-deadline. These are
then levelled: no job has an earlier one than its parents, none lies behind the deadline, and every
job without children has the deadline itself.
-/

namespace WattPlan

/-- How slack is handed to jobs: in proportion to the earliest finish, by depth, by the way that is
left to the end, or by the place in the order of descending upward rank. -/
inductive SubDeadlineRule where
  | eftScaled
  | depthShare
  | rankShare
  | positionShare
deriving DecidableEq, Repr

/-- The deadline of a workflow and the sub-deadlines of its jobs. -/
structure DeadlinePlan (α : Type) where
  base : α
  criticalPath : α
  deadline : α
  subDeadlines : List α

variable {α : Type} [Scalar α]

/-- The jobs by descending upward rank, those of equal rank by number. -/
def Metrics.byUpwardRank (metrics : Metrics α) (workflow : Workflow α) : List JobId :=
  workflow.jobIds.mergeSort fun a b =>
    ((Scalar.totalOrder (metrics.upwardRank b) (metrics.upwardRank a)).then (compare a b)).isLE

namespace DeadlinePlan

/-- What a rule gives each job before levelling. -/
def shares (workflow : Workflow α) (metrics : Metrics α) (base slackFactor : α) :
    SubDeadlineRule → List α
  | .eftScaled => workflow.jobs.map fun job =>
      base + metrics.earliestFinish job.id * (1 + slackFactor)
  | .depthShare =>
      let slack := metrics.criticalPath * slackFactor
      let levels : α := Scalar.ofNat (workflow.maxDepth + 1)
      workflow.jobs.map fun job =>
        base + metrics.earliestFinish job.id + slack * Scalar.ofNat (job.depth + 1) / levels
  | .rankShare =>
      let slack := metrics.criticalPath * slackFactor
      let top := metrics.maxUpwardRank
      workflow.jobs.map fun job =>
        let finish := base + metrics.earliestFinish job.id
        if 0 < top then
          let share := top - metrics.upwardRank job.id + metrics.weight job
          finish + share * slack / top
        else finish
  | .positionShare =>
      let slack := metrics.criticalPath * slackFactor
      let order := metrics.byUpwardRank workflow
      let count : α := Scalar.ofNat workflow.jobs.length
      workflow.jobs.map fun job =>
        let place := order.idxOf job.id
        base + metrics.earliestFinish job.id + Scalar.ofNat (place + 1) * slack / count

/-- Levels the sub-deadline of one job. -/
def levelJob (workflow : Workflow α) (deadline : α) (shares : List α) (id : JobId) : List α :=
  match workflow.job? id with
  | none => shares
  | some job =>
      if job.children.isEmpty then shares.set id deadline
      else
        let floor := Scalar.maxFrom (-Scalar.infinity)
          (job.parents.map fun parent => shares.getD parent 0)
        shares.set id (Scalar.min (Scalar.max (shares.getD id 0) floor) deadline)

/-- The deadline plan of a workflow from a base time. -/
def ofWorkflow (workflow : Workflow α) (metrics : Metrics α) (base slackFactor : α)
    (rule : SubDeadlineRule) : DeadlinePlan α :=
  let criticalPath := metrics.criticalPath
  let deadline := base + criticalPath + criticalPath * slackFactor
  { base
    criticalPath
    deadline
    subDeadlines := workflow.depthOrder.foldl (levelJob workflow deadline)
      (shares workflow metrics base slackFactor rule) }

/-- The sub-deadline of a job. -/
def subDeadline (plan : DeadlinePlan α) (job : JobId) : α :=
  plan.subDeadlines.getD job 0

end DeadlinePlan

end WattPlan
