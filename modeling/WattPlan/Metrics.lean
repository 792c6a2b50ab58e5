import WattPlan.Workflow

/-!
# Metrics of a workflow

Before a workflow is planned, its jobs get a weight, the time they take at a reference speed with
the mean time of staging their stored inputs, and its dependencies the mean time of moving the data
between two nodes. Three passes over the jobs follow:

* the earliest finish of a job is its weight after the latest arrival from a parent;
* the upward rank is its weight before the longest way to the end;
* the downward rank is the longest way from the start to the job.

The largest earliest finish is the length of the critical path.
-/

namespace WattPlan

/-- How the mean transfer time over a catalog is computed: over all ordered pairs of nodes, or from
the number of nodes at each site. -/
inductive TransferAveraging where
  | nodePairs
  | siteAggregated
deriving DecidableEq, Repr

/-- The speed that turns lengths into times: the mean of the top speeds or the highest one. -/
inductive SpeedReference where
  | mean
  | fastest
deriving DecidableEq, Repr

/-- Estimated times of jobs on a catalog: staging by job and node, its mean by job, and mean
transfers by job and parent. -/
structure Estimates (α : Type) where
  referenceSpeed : α
  staging : List (List α)
  meanStaging : List α
  transfers : List (List α)

/-- Estimates with the results of the three passes, by job. -/
structure Metrics (α : Type) extends Estimates α where
  earliestFinishes : List α
  upwardRanks : List α
  downwardRanks : List α

variable {α : Type} [Scalar α]

/-- The mean time that data takes between two nodes, each chosen among all nodes. -/
def Catalog.meanTransfer (catalog : Catalog α) (averaging : TransferAveraging) (data : α) : α :=
  if data == 0 then 0
  else
    let n : α := Scalar.ofNat catalog.nodes.length
    match averaging with
    | .nodePairs =>
        let times := catalog.nodes.flatMap fun source =>
          catalog.nodes.map fun target => catalog.transferTime data source target
        times.foldl (· + ·) 0 / (n * n)
    | .siteAggregated =>
        let samePairs : α := Scalar.sum (catalog.sites.map fun site =>
          let count := Scalar.ofNat (catalog.nodesAt site.id).length
          count * count)
        let intraPairs := samePairs - n
        let interPairs := n * n - samePairs
        let total : α := 0
        let total :=
          if 0 < intraPairs then total + intraPairs * data / catalog.network.intraSite else total
        let total :=
          if 0 < interPairs then total + interPairs * data / catalog.network.interSite else total
        total / (n * n)

/-- The time of staging the stored inputs of a job on a node. -/
def Catalog.stagingTime (catalog : Catalog α) (job : Job α) (node : Node α) : α :=
  Scalar.sum (job.storedInputs.map fun input =>
    catalog.fetchTime input.size input.location node)

/-- The reference speed of a catalog. -/
def Catalog.referenceSpeed (catalog : Catalog α) : SpeedReference → α
  | .mean => catalog.meanTopSpeed
  | .fastest => catalog.maxTopSpeed

namespace Estimates

/-- The estimates for a workflow on a catalog. -/
def ofWorkflow (workflow : Workflow α) (catalog : Catalog α) (averaging : TransferAveraging)
    (speed : SpeedReference) : Estimates α :=
  let staging := workflow.jobs.map fun job => catalog.nodes.map (catalog.stagingTime job)
  { referenceSpeed := catalog.referenceSpeed speed
    staging
    meanStaging := staging.map Scalar.mean
    transfers := workflow.jobs.map fun job => job.parents.map fun parent =>
      match workflow.job? parent with
      | some writer => catalog.meanTransfer averaging (job.dataFrom writer)
      | none => 0 }

/-- The mean execution and staging time of a job. -/
def weight (estimates : Estimates α) (job : Job α) : α :=
  job.length / estimates.referenceSpeed + estimates.meanStaging.getD job.id 0

/-- The parents of a job with the mean transfer times from them. -/
def arrivals (estimates : Estimates α) (job : Job α) : List (JobId × α) :=
  job.parents.zip (estimates.transfers.getD job.id [])

/-- The mean transfer time to a job from a parent, 0 from any other job. -/
def transferFrom (estimates : Estimates α) (job : Job α) (parent : JobId) : α :=
  ((estimates.arrivals job).lookup parent).getD 0

/-- The value that a neighbour of a job has got in a pass. -/
def valueOf (workflow : Workflow α) (metric : Metric) (values : List (Option α))
    (job neighbour : JobId) : Except (PlanFault α) α :=
  match values[neighbour]? with
  | some (some value) => .ok value
  | _ => .error (.missingMetric metric (workflow.jobName job) (workflow.jobName neighbour))

/-- A pass over the jobs in an order: each job gets its score, which may look at the values of the
jobs before it. Every job must have a value in the end. -/
def pass (workflow : Workflow α) (metric : Metric)
    (score : List (Option α) → Job α → Except (PlanFault α) α) (order : List JobId) :
    Except (PlanFault α) (List α) := do
  let values ← order.foldlM (fun values id =>
    match workflow.job? id with
    | some job => do .ok (values.set id (some (← score values job)))
    | none => .ok values) (List.replicate workflow.jobs.length none)
  (List.range workflow.jobs.length).mapM fun id => valueOf workflow metric values id id

/-- The weight of a job after the latest arrival from a parent. -/
def earliestFinish (estimates : Estimates α) (workflow : Workflow α) (values : List (Option α))
    (job : Job α) : Except (PlanFault α) α := do
  let start ← (estimates.arrivals job).foldlM (fun start (parent, transfer) => do
    let finish ← valueOf workflow .earliestFinish values job.id parent
    .ok (Scalar.max start (finish + transfer))) 0
  .ok (start + estimates.weight job)

/-- The weight of a job before the longest way over a child. -/
def upwardRank (estimates : Estimates α) (workflow : Workflow α) (values : List (Option α))
    (job : Job α) : Except (PlanFault α) α := do
  let tail ← job.children.foldlM (fun tail child => do
    let rank ← valueOf workflow .upwardRank values job.id child
    let transfer := ((workflow.job? child).map fun reader =>
      estimates.transferFrom reader job.id).getD 0
    .ok (Scalar.max tail (rank + transfer))) 0
  .ok (estimates.weight job + tail)

/-- The longest way to a job over a parent. -/
def downwardRank (estimates : Estimates α) (workflow : Workflow α) (values : List (Option α))
    (job : Job α) : Except (PlanFault α) α :=
  (estimates.arrivals job).foldlM (fun head (parent, transfer) => do
    let rank ← valueOf workflow .downwardRank values job.id parent
    let weight := ((workflow.job? parent).map estimates.weight).getD 0
    .ok (Scalar.max head (rank + weight + transfer))) 0

end Estimates

namespace Metrics

/-- The metrics of a workflow on a catalog. -/
def ofWorkflow (workflow : Workflow α) (catalog : Catalog α) (averaging : TransferAveraging)
    (speed : SpeedReference) : Except (PlanFault α) (Metrics α) := do
  let estimates := Estimates.ofWorkflow workflow catalog averaging speed
  let order := workflow.depthOrder
  let earliestFinishes ←
    Estimates.pass workflow .earliestFinish (estimates.earliestFinish workflow) order
  let upwardRanks ←
    Estimates.pass workflow .upwardRank (estimates.upwardRank workflow) order.reverse
  let downwardRanks ←
    Estimates.pass workflow .downwardRank (estimates.downwardRank workflow) order
  .ok { estimates with earliestFinishes, upwardRanks, downwardRanks }

/-- The earliest finish of a job. -/
def earliestFinish (metrics : Metrics α) (job : JobId) : α :=
  metrics.earliestFinishes.getD job 0

/-- The upward rank of a job. -/
def upwardRank (metrics : Metrics α) (job : JobId) : α :=
  metrics.upwardRanks.getD job 0

/-- The downward rank of a job. -/
def downwardRank (metrics : Metrics α) (job : JobId) : α :=
  metrics.downwardRanks.getD job 0

/-- The time of staging the stored inputs of a job on a node. -/
def stagingTime (metrics : Metrics α) (job : JobId) (node : NodeId) : α :=
  (metrics.staging.getD job []).getD node 0

/-- The length of the critical path: the largest earliest finish. -/
def criticalPath (metrics : Metrics α) : α :=
  Scalar.maxFrom 0 metrics.earliestFinishes

/-- The largest upward rank. -/
def maxUpwardRank (metrics : Metrics α) : α :=
  Scalar.maxFrom 0 metrics.upwardRanks

end Metrics

end WattPlan
