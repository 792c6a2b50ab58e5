import WattPlan.Placement.Search

/-!
# Passes over a job order

A pass takes the jobs of a workflow in an order and places every job whose parents are placed,
sweeping over the jobs that are left until none is. It works on its own copy of the timelines. A
complete pass is a `Solution`.
-/

namespace WattPlan

/-- A computation that draws and can fail. What was drawn stays drawn. -/
abbrev Trial (α β : Type) : Type :=
  ExceptT (PlanFault α) (StateM Generator) β

/-- A pass so far: the timelines and the placements in the order in which they were made. -/
structure Pass (α : Type) where
  timelines : Timelines α
  placed : List (Placement α)

/-- A complete pass: its placements by job, the order in which they were made, what they cost, when
the last one finishes and how reliable they are together. -/
structure Solution (α : Type) where
  placements : List (Placement α)
  commitOrder : List JobId
  cost : α
  finishTime : α
  reliability : α
  timelines : Timelines α

variable {α : Type} [Scalar α]

namespace Pass

/-- A pass without placements. -/
def start {α : Type} (timelines : Timelines α) : Pass α :=
  ⟨timelines, []⟩

/-- The placement of a job. -/
def placement? {α : Type} (pass : Pass α) (job : JobId) : Option (Placement α) :=
  pass.placed.find? fun placement => placement.job = job

/-- Is a job placed? -/
def isPlaced {α : Type} (pass : Pass α) (job : JobId) : Bool :=
  (pass.placement? job).isSome

/-- The jobs in the order in which they were placed. -/
def commitOrder {α : Type} (pass : Pass α) : List JobId :=
  pass.placed.map fun placement => placement.job

/-- The reliability of the placements together. -/
def reliability (pass : Pass α) : α :=
  pass.placed.foldl (fun total placement => total * placement.reliability) 1

/-- The cost of the placements together. -/
def cost (pass : Pass α) : α :=
  pass.placed.foldl (fun total placement => total + placement.cost) 0

/-- The finish of the last placement, 0 without placements. -/
def finishTime (pass : Pass α) : α :=
  Scalar.maxFrom 0 (pass.placed.map fun placement => placement.finish)

/-- The arrival from a parent of a job. The parent must be placed. -/
def arrivalFrom (pass : Pass α) (workflow : Workflow α) (job : Job α) (parent : JobId) :
    Except (PlanFault α) (Arrival α) :=
  match pass.placement? parent, workflow.job? parent with
  | some placement, some writer =>
      .ok ⟨placement.finish, placement.node, job.dataFrom writer⟩
  | _, _ =>
      .error (.inconsistentPrecedence workflow.name job.name (workflow.jobName parent))

/-- What is known about a job when its turn comes. -/
def request (pass : Pass α) (problem : Problem α) (job : Job α) :
    Except (PlanFault α) (Request α) := do
  let arrivals ← job.parents.mapM (pass.arrivalFrom problem.workflow job)
  let begin :=
    if arrivals.isEmpty then problem.workflow.submittedAt
    else Scalar.minFrom Scalar.infinity (arrivals.map Arrival.finish)
  let subGoal :=
    if problem.profile.reliabilityPruning then
      problem.budget.subGoal pass.reliability pass.placed.length
    else 0
  .ok
    { problem
      timelines := pass.timelines
      job
      arrivals
      begin
      subDeadline := problem.deadlines.subDeadline job.id
      subGoal }

/-- Commits a candidate for a job to the timelines. The window is the one that the timeline gives: as
in a build without debug assertions, it is not compared with the start of the candidate. -/
def commit (pass : Pass α) (problem : Problem α) (job : Job α) (chosen : Candidate α) : Pass α :=
  let level := chosen.node.levels.getD chosen.level chosen.node.fastest
  let (timelines, window) := pass.timelines.commit chosen.node.id (level.execTime job.length)
    chosen.ready ⟨problem.workflow.id, job.id⟩
  let committed := { chosen with start := window.start, finish := window.finish }
  ⟨timelines, pass.placed ++ [⟨committed, job.id⟩]⟩

/-- Searches a candidate for a job and commits it. -/
def place (pass : Pass α) (problem : Problem α) (job : Job α) : Trial α (Pass α) := do
  let request ← ExceptT.mk (pure (pass.request problem job))
  let chosen ← ExceptT.lift request.search
  pure (pass.commit problem job chosen)

/-- Is a job still to be placed, and are all its parents placed? -/
def isDue {α : Type} (pass : Pass α) (job : Job α) : Bool :=
  !pass.isPlaced job.id && job.parents.all pass.isPlaced

/-- One sweep over jobs: those that are due when their turn comes are placed, the others are left
for the next sweep. -/
def sweep (problem : Problem α) : List JobId → Pass α → Trial α (Pass α × List JobId)
  | [], pass => pure (pass, [])
  | id :: rest, pass =>
      match (problem.workflow.job? id).filter pass.isDue with
      | some job => do
          let next ← pass.place problem job
          sweep problem rest next
      | none => do
          let (last, left) ← sweep problem rest pass
          pure (last, id :: left)

/-- The first job that is not placed and the first of its parents that is not. -/
def firstBlocked {α : Type} (pass : Pass α) (workflow : Workflow α) : PlanFault α :=
  match workflow.jobs.find? fun job => !pass.isPlaced job.id with
  | none => .emptyWorkflow workflow.name
  | some job =>
      let parent := (job.parents.find? fun parent => !pass.isPlaced parent).getD job.id
      .inconsistentPrecedence workflow.name job.name (workflow.jobName parent)

/-- Sweeps until every job is placed. A sweep that places none is a fault. -/
def sweeps (problem : Problem α) (waiting : List JobId) (pass : Pass α) : Trial α (Pass α) :=
  if problem.workflow.jobs.length ≤ pass.placed.length then pure pass
  else do
    let (next, left) ← sweep problem waiting pass
    if _progress : left.length < waiting.length then sweeps problem left next
    else throw (next.firstBlocked problem.workflow)
termination_by waiting.length

/-- The place of each of a number of jobs in a list, the last one where a job is listed more than
once. Jobs that are not listed are past the end. -/
def placesIn (jobs : Nat) (order : List JobId) : Array Nat :=
  order.zipIdx.foldl (fun places (id, place) => places.setIfInBounds id place)
    (Array.replicate jobs order.length)

/-- The rule that a job has a later place than all its parents. Otherwise the job and the first
parent that breaks it are named. -/
def checkPlace {α : Type} (workflow : Workflow α) (place : JobId → Nat) (id : JobId) :
    Except (PlanFault α) Unit :=
  match workflow.job? id with
  | none => .ok ()
  | some job =>
      match job.parents.find? fun parent => place id ≤ place parent with
      | some parent =>
          .error (.inconsistentPrecedence workflow.name job.name (workflow.jobName parent))
      | none => .ok ()

/-- Does every parent of every listed job come before it in the list? -/
def verifyTopological {α : Type} (workflow : Workflow α) (order : List JobId) :
    Except (PlanFault α) Unit :=
  let places := placesIn workflow.jobs.length order
  order.forM (checkPlace workflow fun id => places.getD id order.length)

/-- The solution of a complete pass. -/
def solution (pass : Pass α) (workflow : Workflow α) : Except (PlanFault α) (Solution α) :=
  match workflow.jobIds.mapM pass.placement? with
  | none => .error (pass.firstBlocked workflow)
  | some placements =>
      .ok
        { placements
          commitOrder := pass.commitOrder
          cost := pass.cost
          finishTime := pass.finishTime
          reliability := pass.reliability
          timelines := pass.timelines }

/-- Places all jobs of a workflow in an order, from the given timelines. -/
def run (problem : Problem α) (timelines : Timelines α) (order : List JobId) :
    Trial α (Solution α) := do
  let pass ← sweeps problem order (start timelines)
  ExceptT.mk (pure (verifyTopological problem.workflow pass.commitOrder))
  ExceptT.mk (pure (pass.solution problem.workflow))

end Pass

end WattPlan
