import WattPlan.Pass

/-!
# Iterated local search

The search runs passes over job orders and keeps the cheapest feasible one. A pass is accepted if
it is feasible and cheaper than the best one before; every other pass adds one to the stagnation.
Between passes the best order is perturbed by exchanging two jobs in each of as many tie groups as
the stagnation counts. The search ends when the stagnation reaches its limit.
-/

namespace WattPlan

/-- What is kept of a pass. -/
structure PassRecord (α : Type) where
  cost : α
  finishTime : α
  reliability : α
  feasible : Bool
  accepted : Bool
  stagnation : Nat
deriving DecidableEq, Repr

/-- The search so far: the best solution with its order, the records of the passes, the last one
first, and the stagnation. -/
structure Progress (α : Type) where
  best : Option (Solution α × List JobId)
  history : List (PassRecord α)
  stagnation : Nat

/-- A search for one workflow: the problem, the timelines that every pass starts from, the first
order, the tie groups and the limit of stagnation. -/
structure LocalSearch (α : Type) where
  problem : Problem α
  timelines : Timelines α
  initial : List JobId
  groups : List (List JobId)
  limit : Nat

variable {α : Type} [Scalar α]

/-- The first order of the jobs under a priority. Equal priorities go by depth, then by number. -/
def Workflow.initialOrder (workflow : Workflow α) (metrics : Metrics α) (key : PriorityKey) :
    List JobId :=
  let byRank := fun a b : Job α =>
    Scalar.totalOrder (metrics.upwardRank b.id) (metrics.upwardRank a.id)
  let byDepth := fun a b : Job α => compare a.depth b.depth
  let byFinish := fun a b : Job α =>
    Scalar.totalOrder (metrics.earliestFinish a.id) (metrics.earliestFinish b.id)
  let through := fun job : Job α => metrics.upwardRank job.id + metrics.downwardRank job.id
  let byNumber := fun a b : Job α => compare a.id b.id
  let order := fun a b : Job α =>
    match key with
    | .upwardRank => ((byRank a b).then (byDepth a b)).then (byNumber a b)
    | .depth => (byDepth a b).then (byNumber a b)
    | .eft => ((byFinish a b).then (byDepth a b)).then (byNumber a b)
    | .criticalPath =>
        ((byDepth a b).then (Scalar.totalOrder (through b) (through a))).then (byNumber a b)
  (workflow.jobs.mergeSort fun a b => (order a b).isLE).map Job.id

/-- The groups of at least two jobs whose order may be exchanged. -/
def Workflow.tieGroups {α : Type} (workflow : Workflow α) : TieRule → List (List JobId)
  | .sharedDepth => workflow.depthGroups.filter fun group => 1 < group.length
  | .sharedParent => (workflow.jobs.map Job.children).filter fun group => 1 < group.length

namespace LocalSearch

/-- The limit of stagnation under a search budget, at least 1. -/
def stagnationLimit (budget : SearchBudget) (groups : List (List JobId)) (jobs : Nat)
    (gamma tau : α) : Nat :=
  let limit :=
    match budget with
    | .singlePass => 1
    | .fractionOfCandidates =>
        Scalar.toNat (Scalar.floor (gamma * Scalar.ofNat groups.flatten.length))
    | .groupCount => groups.length
    | .boundedFractionOfJobs =>
        min (Scalar.toNat (Scalar.floor (tau * Scalar.ofNat jobs))) groups.length
  max limit 1

/-- The order with the places of two jobs exchanged. -/
def exchange (order : List JobId) (a b : JobId) : List JobId :=
  Generator.swapAt order (order.idxOf a) (order.idxOf b)

/-- The order after exchanging two members of a group, chosen by chance. -/
def exchangeIn (order group : List JobId) : Draw (List JobId) :=
  if group.length < 2 then pure order
  else do
    let a ← Generator.below group.length
    let drawn ← Generator.below (group.length - 1)
    let b := if a ≤ drawn then drawn + 1 else drawn
    match group[a]?, group[b]? with
    | some first, some second => pure (exchange order first second)
    | _, _ => pure order

/-- The order after an exchange in each of `count` groups, chosen by chance; in all of them if there
are fewer. The draws are those of fewer than 500000 groups and 163 picks, with at most `2 ^ 32` jobs
in a group (see `Generator.prefersReplacement` and `Generator.below`). -/
def perturb (order : List JobId) (groups : List (List JobId)) (count : Nat) : Draw (List JobId) :=
  let picks := min count groups.length
  if picks = 0 then pure order
  else do
    let chosen ← Generator.sample groups.length picks
    (chosen.map fun place => groups.getD place []).foldlM exchangeIn order

/-- Does a solution meet the deadline and the reliability goal? -/
def isFeasible (problem : Problem α) (solution : Solution α) : Bool :=
  decide (solution.finishTime ≤ problem.deadlines.deadline) &&
    problem.budget.isMet solution.reliability

/-- Takes the solution of a pass over an order into the search. -/
def advance (problem : Problem α) (progress : Progress α) (order : List JobId)
    (solution : Solution α) : Progress α :=
  let feasible := isFeasible problem solution
  let accepted := feasible &&
    (progress.best.all fun (best, _) => decide (solution.cost < best.cost))
  let stagnation := if accepted then 0 else progress.stagnation + 1
  { best := if accepted then some (solution, order) else progress.best
    history :=
      { cost := solution.cost
        finishTime := solution.finishTime
        reliability := solution.reliability
        feasible
        accepted
        stagnation } :: progress.history
    stagnation }

/-- Is there nothing more to try? -/
def isOver (search : LocalSearch α) (progress : Progress α) : Bool :=
  search.problem.profile.budget = .singlePass || search.limit ≤ progress.stagnation

/-- Runs a pass over an order and then, while `more` passes are allowed and the search is not over,
passes over perturbed orders. -/
def continueFrom (search : LocalSearch α) :
    Nat → Progress α → List JobId → Trial α (Progress α)
  | more, progress, order => do
      let solution ← Pass.run search.problem search.timelines order
      let progress := advance search.problem progress order solution
      match more with
      | 0 => pure progress
      | more + 1 =>
          if search.isOver progress then pure progress
          else do
            let base := (progress.best.map Prod.snd).getD search.initial
            let order ← ExceptT.lift (perturb base search.groups progress.stagnation)
            continueFrom search more progress order

/-- The largest number of passes for one workflow. -/
def passLimit : Nat :=
  10000

/-- Runs the search from its first order. -/
def run (search : LocalSearch α) : Trial α (Progress α) :=
  search.continueFrom (passLimit - 1) ⟨none, [], 0⟩ search.initial

end LocalSearch

end WattPlan
