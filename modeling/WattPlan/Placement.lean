import WattPlan.Reliability
import WattPlan.Timeline
import WattPlan.Variant

/-!
# Placements of a job

A `Problem` is what planning one workflow starts from. When the turn of a job comes, a `Request`
holds what is known: the arrivals from its parents, the sub-deadline, the reliability sub-goal and
the timelines so far. `evaluate` turns a node and a power level into a `Candidate` with its start,
finish, cost and reliability; `tryNode` is the best feasible candidate of one node.
-/

namespace WattPlan

/-- A way to run a job: the node and the place of the power level among its levels, when all inputs
are there, when the job starts and finishes, what it costs and how reliable it is. -/
structure Candidate (α : Type) where
  node : Node α
  level : Nat
  ready : α
  start : α
  finish : α
  cost : α
  reliability : α

/-- A candidate that was chosen for a job. -/
structure Placement (α : Type) extends Candidate α where
  job : JobId

/-- The binding of a placed job. -/
def Placement.binding {α : Type} (placement : Placement α) : Binding α :=
  ⟨placement.node.id, placement.level, placement.start, placement.finish, placement.cost⟩

/-- What planning one workflow starts from. `siteWorth` holds for each site the instructions it
gives for a unit of money when the workflow arrives. -/
structure Problem (α : Type) where
  catalog : Catalog α
  workflow : Workflow α
  metrics : Metrics α
  deadlines : DeadlinePlan α
  budget : ReliabilityBudget α
  profile : Profile
  beta : α
  maxSiteRetries : Nat
  siteWorth : List α

/-- The output of a parent: when it is there, on which node, and how much of it the job reads. -/
structure Arrival (α : Type) where
  finish : α
  node : Node α
  data : α

/-- What is known about a job when its turn comes. -/
structure Request (α : Type) where
  problem : Problem α
  timelines : Timelines α
  job : Job α
  arrivals : List (Arrival α)
  begin : α
  subDeadline : α
  subGoal : α

variable {α : Type} [Scalar α]

namespace Objective

/-- How two candidates compare: by the objective, and by the other quantity where that is equal. -/
def compare (objective : Objective) (a b : Candidate α) : Ordering :=
  let byCost := Scalar.totalOrder a.cost b.cost
  let byFinish := Scalar.totalOrder a.finish b.finish
  match objective with
  | .cost => byCost.then byFinish
  | .finishTime => byFinish.then byCost

/-- Is a candidate better than the best one so far? -/
def isBetter (objective : Objective) (candidate : Candidate α) (best : Option (Candidate α)) :
    Bool :=
  match best with
  | none => true
  | some best => objective.compare candidate best = .lt

/-- The better of the best candidate so far and another one, if there is another one. -/
def keepBetter (objective : Objective) (best other : Option (Candidate α)) :
    Option (Candidate α) :=
  match other with
  | some candidate => if objective.isBetter candidate best then some candidate else best
  | none => best

end Objective

namespace Request

/-- The objective of the variant. -/
def objective {α : Type} (request : Request α) : Objective :=
  request.problem.profile.objective

/-- Does a candidate finish by the sub-deadline and reach the sub-goal? -/
def feasible (request : Request α) (candidate : Candidate α) : Bool :=
  decide (candidate.finish ≤ request.subDeadline) &&
    decide (request.subGoal ≤ candidate.reliability)

/-- The time that the output of a parent takes to a node. -/
def transferTime (request : Request α) (arrival : Arrival α) (node : Node α) : α :=
  request.problem.catalog.transferTime arrival.data arrival.node node

/-- The time of staging the stored inputs on a node. -/
def stagingTime (request : Request α) (node : Node α) : α :=
  request.problem.metrics.stagingTime request.job.id node.id

/-- The time at which all inputs are on a node. It is not before the submission. -/
def readyTime (request : Request α) (node : Node α) : α :=
  let arrived := request.arrivals.map fun arrival =>
    arrival.finish + request.transferTime arrival node
  Scalar.maxFrom request.problem.workflow.submittedAt arrived + request.stagingTime node

/-- The cost of staging at a power: over the window until the job is ready, or for each transfer by
itself, the local staging first. -/
def stagingCost (request : Request α) (node : Node α) (power ready : α) : α :=
  let tariff := node.site.tariff
  match request.problem.profile.staging with
  | .readyWindow => tariff.energyCost request.begin ready power
  | .perTransfer =>
      let transfers := request.arrivals.map fun arrival =>
        tariff.energyCost arrival.finish
          (arrival.finish + request.transferTime arrival node) power
      transfers.foldl (· + ·) (tariff.energyCost (ready - request.stagingTime node) ready power)

/-- The candidate of a power level of a node. -/
def evaluate (request : Request α) (node : Node α) (ready : α)
    (choice : PowerLevel α × Nat) : Candidate α :=
  let (level, place) := choice
  let execTime := level.execTime request.job.length
  let start := (request.timelines.ofNode node.id).probe execTime ready
  { node
    level := place
    ready
    start
    finish := start + execTime
    cost := request.stagingCost node level.power ready +
      node.site.tariff.energyCost start (start + execTime) level.power
    reliability := level.reliability request.job.length }

/-- The time that a slower level may take from the start of the fastest one: until the next window
or the sub-deadline, less a share `beta` of the time this leaves after the fastest level. -/
def span (request : Request α) (fastest : Candidate α) : α :=
  let next := ((request.timelines.ofNode fastest.node.id).nextStart? fastest.start).getD
    Scalar.infinity
  let latest := Scalar.min next request.subDeadline
  if Scalar.isFinite latest then
    latest - request.problem.beta * (latest - fastest.finish) - fastest.start
  else Scalar.infinity

/-- Does a level keep to a span and to the sub-goal? -/
def fitsSpan (request : Request α) (span : α) (level : PowerLevel α) : Bool :=
  !decide (span < level.execTime request.job.length) &&
    !decide (level.reliability request.job.length < request.subGoal)

/-- The slowest level in the row of levels after the fastest that fit its span. -/
def relaxedLevel? (request : Request α) (fastest : Candidate α) : Option (PowerLevel α × Nat) :=
  ((fastest.node.slower.zipIdx 1).takeWhile fun (level, _) =>
    request.fitsSpan (request.span fastest) level).getLast?

/-- Slows a feasible candidate down, if it still starts at the same time and stays feasible. -/
def relax (request : Request α) (ready : α) (fastest : Candidate α) : Candidate α :=
  match request.relaxedLevel? fastest with
  | none => fastest
  | some choice =>
      let relaxed := request.evaluate fastest.node ready choice
      if relaxed.start == fastest.start && request.feasible relaxed then relaxed else fastest

/-- The candidates of levels one by one, up to the first that falls short of the sub-goal or finishes
behind the sub-deadline. A level that falls short is not evaluated, nor is any after it. -/
def feasibleChoices (request : Request α) (node : Node α) (ready : α) :
    List (PowerLevel α × Nat) → List (Candidate α)
  | [] => []
  | choice :: rest =>
      if choice.1.reliability request.job.length < request.subGoal then []
      else
        let candidate := request.evaluate node ready choice
        if request.subDeadline < candidate.finish then []
        else candidate :: feasibleChoices request node ready rest

/-- The candidates of a node level by level, up to the first that falls short of the sub-goal or
finishes behind the sub-deadline. -/
def feasibleLevels (request : Request α) (node : Node α) (ready : α) : List (Candidate α) :=
  request.feasibleChoices node ready node.levels.zipIdx

/-- The candidate of the fastest level of a node. -/
def evaluateFastest (request : Request α) (node : Node α) : Candidate α :=
  request.evaluate node (request.readyTime node) (node.fastest, 0)

/-- The best feasible candidate of a node, if it has one. -/
def tryNode (request : Request α) (node : Node α) : Option (Candidate α) :=
  match request.problem.profile.levelSearch with
  | .fastestOnly | .random => some (request.evaluateFastest node) |>.filter request.feasible
  | .fastestThenRelax =>
      ((some (request.evaluateFastest node)).filter request.feasible).map
        (request.relax (request.readyTime node))
  | .exhaustive =>
      ((request.feasibleLevels node (request.readyTime node)).map some).foldl
        request.objective.keepBetter none

end Request

end WattPlan
