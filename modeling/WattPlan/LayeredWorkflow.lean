import WattPlan.Decimal
import WattPlan.Generator
import WattPlan.WorkflowFile

/-!
# Random layered workflows

A layered workflow has its jobs in layers. Each job below the first layer depends on at least one
job of the layer above and reads what that job writes; the jobs of the first layer read files of
their own. `Shape.fault?` says which shapes are refused, and `Shape.draw` draws a workflow of a
shape.
-/

namespace WattPlan.LayeredWorkflow

open Decimal

/-- What random workflows are to look like. A layer has between one and `width` jobs. -/
structure Shape (α : Type) where
  name : String
  id : Option Nat
  layers : Nat
  width : Nat
  minLength : α
  maxLength : α
  maxData : α
  edgeProbability : α
  inputNode : Option String
  submittedAt : α

/-- Why a shape is refused. -/
inductive ShapeFault where
  | noJobs
  | lengths
  | data
  | probability
deriving DecidableEq, Repr

namespace Shape

open Generator

variable {α : Type} [Scalar α]

/-- The first rule that a shape breaks. -/
def fault? (shape : Shape α) : Option ShapeFault :=
  if shape.layers = 0 ∨ shape.width = 0 then some .noJobs
  else if ¬ (0 < shape.minLength ∧ shape.minLength ≤ shape.maxLength) then some .lengths
  else if ¬ 0 ≤ shape.maxData then some .data
  else if ¬ (0 ≤ shape.edgeProbability ∧ shape.edgeProbability ≤ 1) then some .probability
  else none

/-- Do the intervals have finite widths that the lengths and sizes are drawn from? -/
def isDrawable (shape : Shape α) : Bool :=
  (!decide (shape.minLength < shape.maxLength) || hasWidth shape.minLength shape.maxLength) &&
    (!decide (0 < shape.maxData) || hasWidth 0 shape.maxData)

/-- The length of a job. -/
def drawLength (shape : Shape α) : Draw α :=
  if shape.minLength < shape.maxLength then between shape.minLength shape.maxLength
  else pure shape.minLength

/-- The size of a file, a whole number of bytes. -/
def drawSize (shape : Shape α) : Draw α :=
  if 0 < shape.maxData then do
    let size ← between 0 shape.maxData
    pure (Scalar.round size)
  else pure 0

/-- The parents of a job among the jobs of the layer above: one drawn first, and each other one with
the probability of an edge. -/
def drawParents (shape : Shape α) (above : List (JobEntry α)) : Draw (List (JobEntry α)) :=
  if above.isEmpty then pure []
  else do
    let first ← below above.length
    above.zipIdx.filterMapM fun (job, place) => do
      let taken ← if place = first then pure true else chance shape.edgeProbability
      pure (if taken then some job else none)

/-- The files that a job of the first layer reads. -/
def drawStaged (shape : Shape α) (layer : Nat) (name : String) : Draw (List (ArtifactEntry α)) :=
  if layer = 0 then do
    let size ← shape.drawSize
    pure [⟨name ++ ".in", size, shape.inputNode⟩]
  else pure []

/-- A job of a layer. It reads what its parents write and writes one file. -/
def drawJob (shape : Shape α) (layer : Nat) (above : List (JobEntry α)) (place : Nat) :
    Draw (JobEntry α) := do
  let name := "L" ++ natText layer ++ "_J" ++ natText place
  let length ← shape.drawLength
  let parents ← shape.drawParents above
  let staged ← shape.drawStaged layer name
  let size ← shape.drawSize
  pure
    { name
      length
      parents := parents.map JobEntry.name
      inputs := parents.flatMap JobEntry.outputs ++ staged
      outputs := [⟨name ++ ".out", size, none⟩] }

/-- The jobs of layers from one on, below the given jobs. The draws are those of a width below
`2 ^ 32` (see `Generator.below`). -/
def drawLayers (shape : Shape α) : Nat → Nat → List (JobEntry α) → Draw (List (JobEntry α))
  | 0, _, _ => pure []
  | count + 1, layer, above => do
      let more ← below shape.width
      let jobs ← (List.range (more + 1)).mapM (shape.drawJob layer above)
      let rest ← drawLayers shape count (layer + 1) jobs
      pure (jobs ++ rest)

/-- A random workflow of a shape that can be drawn (`isDrawable`). -/
def draw (shape : Shape α) : Draw (WorkflowFile α) := do
  let jobs ← shape.drawLayers shape.layers 0 []
  pure
    { name := shape.name
      id := shape.id
      submittedAt := shape.submittedAt
      reliabilityGoal := none
      jobs }

end Shape

end WattPlan.LayeredWorkflow
