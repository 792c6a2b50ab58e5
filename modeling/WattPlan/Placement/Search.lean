import WattPlan.Placement.Sites

/-!
# The search for a placement

The search for a job visits the sites that the profile names. A bounded retry searches one site
after another, by chance, by average price and by the place of the data in turn, and starts again
whenever it finds a better candidate; it ends after a row of attempts without one. Where no
candidate is feasible, the job runs on a node by chance, at its fastest level.
-/

namespace WattPlan

variable {α : Type} [Scalar α]

namespace Request

/-- The strategy of an attempt, by its number. -/
def retryStrategy (attempt : Nat) : SiteOrdering :=
  match attempt % 3 with
  | 0 => .random
  | 1 => .cheapestAveragePrice
  | _ => .dataLocality

/-- Attempts from a number on, at most `left` of them, until one is better than the best candidate
so far. -/
def firstImprovement (request : Request α) (best : Option (Candidate α)) :
    Nat → Nat → Draw (Option (Candidate α))
  | 0, _ => pure none
  | left + 1, attempt => do
      let sites ← request.sitesFor (retryStrategy attempt)
      match request.searchSites sites with
      | some candidate =>
          if request.objective.isBetter candidate best then pure (some candidate)
          else firstImprovement request best left (attempt + 1)
      | none => firstImprovement request best left (attempt + 1)

/-- Rows of attempts, a new one after each improvement. A site gives one candidate, so there are no
more improvements than sites. -/
def retryRounds (request : Request α) : Nat → Option (Candidate α) → Draw (Option (Candidate α))
  | 0, best => pure best
  | rounds + 1, best => do
      match ← request.firstImprovement best request.problem.maxSiteRetries 0 with
      | some candidate => retryRounds request rounds (some candidate)
      | none => pure best

/-- The candidate of the bounded retry. -/
def boundedRetry (request : Request α) : Draw (Option (Candidate α)) :=
  request.retryRounds (request.sites.length + 1) none

/-- A node by chance. -/
def randomNode {α : Type} (request : Request α) : Draw (Node α) :=
  Generator.choose request.problem.catalog.nodes request.problem.catalog.nonempty

/-- A node and a power level by chance. -/
def randomCandidate (request : Request α) : Draw (Candidate α) := do
  let node ← request.randomNode
  let choice ← Generator.choose ((node.fastest, 0) :: node.slower.zipIdx 1) (by simp)
  pure (request.evaluate node (request.readyTime node) choice)

/-- The feasible candidate that the sites of the profile give, if any. -/
def feasibleCandidate (request : Request α) : Draw (Option (Candidate α)) :=
  match request.problem.profile.siteOrdering with
  | .boundedRetry => request.boundedRetry
  | ordering => do
      let sites ← request.sitesFor ordering
      pure (request.searchSites sites)

/-- The candidate for a job. -/
def search (request : Request α) : Draw (Candidate α) :=
  match request.problem.profile.levelSearch with
  | .random => request.randomCandidate
  | _ => do
      match ← request.feasibleCandidate with
      | some candidate => pure candidate
      | none => do
          let node ← request.randomNode
          pure (request.evaluateFastest node)

end Request

end WattPlan
