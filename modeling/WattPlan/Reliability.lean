import WattPlan.Workflow

/-!
# Reliability budgets

The reliability goal of a workflow is spread over its jobs in equal factors. When a job is placed,
its sub-goal is what it must reach so that the goal is met if every job still to come reaches its
factor; reliability gained early relaxes the later sub-goals.
-/

namespace WattPlan

/-- The time and the reliability of a job at a power level. -/
structure Estimate (α : Type) where
  execTime : α
  reliability : α
deriving DecidableEq, Repr

/-- A reliability goal for a number of jobs, and the factor that falls to each of them. -/
structure ReliabilityBudget (α : Type) where
  goal : α
  perJob : α
  jobs : Nat
deriving DecidableEq, Repr

variable {α : Type} [Scalar α]

/-- The estimate of a job of the given length. -/
def PowerLevel.estimate (level : PowerLevel α) (length : α) : Estimate α :=
  ⟨level.execTime length, level.reliability length⟩

/-- The estimates of a workflow by job, node and level. -/
def Workflow.estimates (workflow : Workflow α) (catalog : Catalog α) :
    List (List (List (Estimate α))) :=
  workflow.jobs.map fun job => catalog.nodes.map fun node =>
    node.levels.map fun level => level.estimate job.length

/-- The goal of a workflow that states none: the reliability of all its work at the reference
speed. -/
def Workflow.defaultGoal (workflow : Workflow α) (reliabilityFactor referenceSpeed : α) : α :=
  Scalar.exp (-reliabilityFactor * workflow.totalLength / referenceSpeed)

namespace ReliabilityBudget

/-- The factor that falls to each of a number of jobs: the root of the goal, 1 without jobs. A goal
that is not positive counts as 0. -/
def share (goal : α) (jobs : Nat) : α :=
  if jobs = 0 then 1
  else Scalar.pow (if 0 < goal then goal else 0) (1 / Scalar.ofNat jobs)

/-- The budget of a goal for a number of jobs. -/
def ofGoal (goal : α) (jobs : Nat) : ReliabilityBudget α :=
  ⟨goal, share goal jobs, jobs⟩

/-- The number of jobs after the next one, as a signed 32-bit word. -/
def remainingAfter (budget : ReliabilityBudget α) (committed : Nat) : Int :=
  Int.bmod (budget.jobs - (committed + 1) : Nat) (Nat.pow 2 32)

/-- The reliability that the next job must reach when `committed` jobs have reached `achieved`
together. A goal that is not positive asks for nothing. -/
def subGoal (budget : ReliabilityBudget α) (achieved : α) (committed : Nat) : α :=
  if budget.goal ≤ 0 then 0
  else budget.goal / (achieved * Scalar.powInt budget.perJob (budget.remainingAfter committed))

/-- Does a reliability meet the goal? -/
def isMet (budget : ReliabilityBudget α) (reliability : α) : Bool :=
  decide (budget.goal ≤ reliability)

end ReliabilityBudget

end WattPlan
