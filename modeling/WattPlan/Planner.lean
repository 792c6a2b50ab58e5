import WattPlan.LocalSearch
import WattPlan.Submission

/-!
# The planner

A planner takes workflows one after another. What it carries from one to the next are the
timelines, the total cost, the latest finish, the committed jobs and the generator. A workflow
whose search finds no feasible solution leaves all of these as they were, except the generator.
-/

namespace WattPlan

/-- The settings of a planner. `maxRetryCount` is kept for the execution of plans. -/
structure Settings (α : Type) where
  variant : Variant
  slackFactor : α
  reliabilityFactor : α
  seed : Nat
  beta : α
  gamma : α
  tau : α
  maxSiteRetries : Nat
  maxRetryCount : Nat
deriving DecidableEq, Repr

/-- The plan of a workflow. -/
structure Plan (α : Type) where
  workflow : WorkflowId
  name : String
  deadline : α
  reliabilityGoal : α
  cost : α
  finishTime : α
  reliability : α
  placements : List (Placement α)
  commitOrder : List JobId
  stagnationLimit : Nat
  tieGroups : Nat
  passes : List (PassRecord α)

/-- A planner between two workflows. -/
structure Planner (α : Type) where
  catalog : Catalog α
  settings : Settings α
  timelines : Timelines α
  totalCost : α
  globalFinishTime : α
  committed : List JobRef
  generator : Generator

/-- What a planner made of a workflow: the planner and the workflow after it, and the plan or the
reason why there is none. -/
structure Outcome (α : Type) where
  planner : Planner α
  workflow : Workflow α
  result : Except (PlanFault α) (Plan α)

variable {α : Type} [Scalar α]

/-- The settings where none are given. -/
def Settings.standard : Settings α where
  variant := .dews
  slackFactor := 5 / 10
  reliabilityFactor := 1 / 100000
  seed := 0
  beta := 8 / 10
  gamma := 6 / 10
  tau := 6 / 10
  maxSiteRetries := 3
  maxRetryCount := 3

namespace Plan

/-- Does the plan meet its deadline and its reliability goal? -/
def feasible (plan : Plan α) : Bool :=
  decide (plan.finishTime ≤ plan.deadline) && decide (plan.reliabilityGoal ≤ plan.reliability)

/-- The costs of the accepted passes. -/
def acceptedCosts {α : Type} (plan : Plan α) : List α :=
  (plan.passes.filter PassRecord.accepted).map PassRecord.cost

end Plan

namespace Planner

/-- A planner before its first workflow. -/
def start (catalog : Catalog α) (settings : Settings α) : Planner α where
  catalog
  settings
  timelines := Timelines.idle catalog.nodes.length
  totalCost := 0
  globalFinishTime := 0
  committed := []
  generator := Generator.ofSeed (UInt64.ofNat settings.seed)

/-- The profile of the variant. -/
def profile {α : Type} (planner : Planner α) : Profile :=
  planner.settings.variant.profile

/-- The deadline plan of a workflow. Its base is the latest finish so far, or the submission if
that is later. -/
def deadlinesOf (planner : Planner α) (workflow : Workflow α) (metrics : Metrics α) :
    DeadlinePlan α :=
  DeadlinePlan.ofWorkflow workflow metrics
    (Scalar.max planner.globalFinishTime workflow.submittedAt) planner.settings.slackFactor
    planner.profile.subDeadline

/-- The reliability goal of a workflow, or the default one. -/
def goalOf (planner : Planner α) (workflow : Workflow α) (metrics : Metrics α) : α :=
  workflow.reliabilityGoal.getD
    (workflow.defaultGoal planner.settings.reliabilityFactor metrics.referenceSpeed)

/-- What planning a workflow starts from. -/
def problemOf (planner : Planner α) (workflow : Workflow α) (metrics : Metrics α) :
    Problem α where
  catalog := planner.catalog
  workflow
  metrics
  deadlines := planner.deadlinesOf workflow metrics
  budget := ReliabilityBudget.ofGoal (planner.goalOf workflow metrics) workflow.jobs.length
  profile := planner.profile
  beta := planner.settings.beta
  maxSiteRetries := planner.settings.maxSiteRetries
  siteWorth := planner.catalog.sites.map
    (Problem.worthOf planner.catalog workflow.submittedAt planner.timelines)

/-- The search for a plan of a workflow. -/
def searchOf (planner : Planner α) (workflow : Workflow α) (metrics : Metrics α) :
    LocalSearch α :=
  let groups := workflow.tieGroups planner.profile.tieGroups
  { problem := planner.problemOf workflow metrics
    timelines := planner.timelines
    initial := workflow.initialOrder metrics planner.profile.priority
    groups
    limit := LocalSearch.stagnationLimit planner.profile.budget groups workflow.jobs.length
      planner.settings.gamma planner.settings.tau }

/-- Makes a solution the one that later workflows are planned around. -/
def commit (planner : Planner α) (workflow : Workflow α) (solution : Solution α) : Planner α :=
  { planner with
    timelines := solution.timelines
    totalCost := planner.totalCost + solution.cost
    globalFinishTime := Scalar.max planner.globalFinishTime solution.finishTime
    committed := planner.committed ++ solution.commitOrder.map fun job => ⟨workflow.id, job⟩ }

/-- The plan that a search has come to. -/
def planOf (workflow : Workflow α) (search : LocalSearch α) (progress : Progress α)
    (solution : Solution α) : Plan α where
  workflow := workflow.id
  name := workflow.name
  deadline := search.problem.deadlines.deadline
  reliabilityGoal := search.problem.budget.goal
  cost := solution.cost
  finishTime := solution.finishTime
  reliability := solution.reliability
  placements := solution.placements
  commitOrder := solution.commitOrder
  stagnationLimit := search.limit
  tieGroups := search.groups.length
  passes := progress.history.reverse

/-- Plans a workflow. It gets its deadline whether or not a plan is found, and its bindings if one
is. -/
def plan (planner : Planner α) (workflow : Workflow α) : Outcome α :=
  if workflow.jobs.isEmpty then
    ⟨planner, workflow, .error (.emptyWorkflow workflow.name)⟩
  else
    match Metrics.ofWorkflow workflow planner.catalog planner.profile.averaging
        planner.profile.speed with
    | .error fault => ⟨planner, workflow, .error fault⟩
    | .ok metrics =>
        let search := planner.searchOf workflow metrics
        let deadline := search.problem.deadlines.deadline
        let dated := { workflow with deadline := some deadline }
        let (found, generator) := search.run.run planner.generator
        let planner := { planner with generator }
        match found with
        | .error fault => ⟨planner, dated, .error fault⟩
        | .ok progress =>
            match progress.best with
            | none =>
                ⟨planner, dated, .error (.infeasible workflow.id workflow.name
                  planner.settings.slackFactor search.problem.budget.goal deadline)⟩
            | some (solution, _) =>
                { planner := planner.commit workflow solution
                  workflow := solution.placements.foldl
                    (fun workflow placement => workflow.bind placement.job placement.binding)
                    dated
                  result := .ok (planOf workflow search progress solution) }

/-- Plans workflows in turn: the planner after all of them, and each workflow with its result. A
workflow without a plan does not stop the others. -/
def planAll (planner : Planner α) :
    List (Workflow α) → Planner α × List (Workflow α × Except (PlanFault α) (Plan α))
  | [] => (planner, [])
  | workflow :: rest =>
      let outcome := planner.plan workflow
      let (last, results) := planAll outcome.planner rest
      (last, (outcome.workflow, outcome.result) :: results)

/-- Plans a batch in the order of submission. -/
def planBatch (planner : Planner α) (order : SubmissionOrder) (workflows : List (Workflow α)) :
    Planner α × List (Workflow α × Except (PlanFault α) (Plan α)) :=
  planner.planAll (order.sort workflows)

end Planner

end WattPlan
