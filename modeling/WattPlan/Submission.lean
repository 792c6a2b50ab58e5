import WattPlan.Workflow

/-!
# The order of submission

A batch of workflows is planned in an order given by a key, ascending or descending. Workflows with
equal keys are taken by number, ascending in both cases.
-/

namespace WattPlan

/-- What workflows are ordered by. -/
inductive SubmissionKey where
  | id
  | depth
  | jobCount
  | length
deriving DecidableEq, Repr

/-- An order of workflows. -/
structure SubmissionOrder where
  key : SubmissionKey
  descending : Bool
deriving DecidableEq, Repr

namespace SubmissionOrder

/-- Ascending by number. -/
def byId : SubmissionOrder :=
  ⟨.id, false⟩

variable {α : Type} [Scalar α]

/-- How the keys of two workflows compare. -/
def compareKeys (key : SubmissionKey) (a b : Workflow α) : Ordering :=
  match key with
  | .id => compare a.id b.id
  | .depth => compare a.maxDepth b.maxDepth
  | .jobCount => compare a.jobs.length b.jobs.length
  | .length => Scalar.totalOrder a.totalLength b.totalLength

/-- How two workflows compare: by key, and by number where the keys are equal. -/
def compare (order : SubmissionOrder) (a b : Workflow α) : Ordering :=
  let byKey := compareKeys order.key a b
  let byKey := if order.descending then byKey.swap else byKey
  byKey.then (Ord.compare a.id b.id)

/-- The workflows in order. -/
def sort (order : SubmissionOrder) (workflows : List (Workflow α)) : List (Workflow α) :=
  workflows.mergeSort fun a b => (order.compare a b).isLE

end SubmissionOrder

end WattPlan
