import WattPlan.Catalog

/-!
# Workflows

A workflow is a list of jobs, numbered from zero, with the jobs each one depends on. A job reads
artifacts: those that one of its parents writes, matched by name, and those that are stored
somewhere when it starts. The depth of a job is the number of dependencies on the longest chain
that leads to it.
-/

namespace WattPlan

/-- The number that a workflow is known by. -/
abbrev WorkflowId : Type := Nat

/-- The number of a job in its workflow. -/
abbrev JobId : Type := Nat

/-- A job of a workflow. -/
structure JobRef where
  workflow : WorkflowId
  job : JobId
deriving DecidableEq, Repr

/-- A named file with its size in bytes and the node that holds it, if any does. -/
structure Artifact (α : Type) where
  name : String
  size : α
  location : Option NodeId
deriving DecidableEq, Repr

/-- Where and when a job of a planned workflow runs, and what it costs. -/
structure Binding (α : Type) where
  node : NodeId
  level : Nat
  start : α
  finish : α
  cost : α
deriving DecidableEq, Repr

/-- A job: its length in instructions, the jobs before and after it, and its artifacts. -/
structure Job (α : Type) where
  id : JobId
  name : String
  length : α
  depth : Nat
  parents : List JobId
  children : List JobId
  storedInputs : List (Artifact α)
  parentInputs : List (Artifact α)
  outputs : List (Artifact α)
  binding : Option (Binding α)
deriving DecidableEq, Repr

/-- Jobs and their dependencies, the time from which they may run, and what is asked of them. -/
structure Workflow (α : Type) where
  id : WorkflowId
  name : String
  submittedAt : α
  reliabilityGoal : Option α
  deadline : Option α
  jobs : List (Job α)
deriving DecidableEq, Repr

variable {α : Type} [Scalar α]

/-- The bytes that a job reads of what another job writes. -/
def Job.dataFrom (job parent : Job α) : α :=
  Scalar.sum ((job.parentInputs.filter fun input =>
    parent.outputs.any fun output => output.name = input.name).map Artifact.size)

namespace Workflow

/-- The job of a number. -/
def job? {α : Type} (workflow : Workflow α) (id : JobId) : Option (Job α) :=
  workflow.jobs[id]?

/-- The name of a job, empty where there is no such job. -/
def jobName {α : Type} (workflow : Workflow α) (id : JobId) : String :=
  ((workflow.job? id).map Job.name).getD ""

/-- The numbers of the jobs. -/
def jobIds {α : Type} (workflow : Workflow α) : List JobId :=
  workflow.jobs.map Job.id

/-- The largest depth of a job, 0 without jobs. -/
def maxDepth {α : Type} (workflow : Workflow α) : Nat :=
  (workflow.jobs.map Job.depth).foldl max 0

/-- The instructions of all jobs together. -/
def totalLength (workflow : Workflow α) : α :=
  Scalar.sum (workflow.jobs.map Job.length)

/-- The jobs without parents. -/
def roots {α : Type} (workflow : Workflow α) : List (Job α) :=
  workflow.jobs.filter fun job => job.parents.isEmpty

/-- The jobs without children. -/
def sinks {α : Type} (workflow : Workflow α) : List (Job α) :=
  workflow.jobs.filter fun job => job.children.isEmpty

/-- The jobs of each depth, from 0 to the largest one. -/
def depthGroups {α : Type} (workflow : Workflow α) : List (List JobId) :=
  (List.range (workflow.maxDepth + 1)).map fun depth =>
    (workflow.jobs.filter fun job => job.depth = depth).map Job.id

/-- All jobs by depth, those of one depth by number. -/
def depthOrder {α : Type} (workflow : Workflow α) : List JobId :=
  workflow.depthGroups.flatten

/-- Does every job have a binding? -/
def isBound {α : Type} (workflow : Workflow α) : Bool :=
  workflow.jobs.all fun job => job.binding.isSome

/-- Binds a job. -/
def bind {α : Type} (workflow : Workflow α) (id : JobId) (binding : Binding α) : Workflow α :=
  { workflow with
    jobs := workflow.jobs.modify id fun job => { job with binding := some binding } }

end Workflow

end WattPlan
