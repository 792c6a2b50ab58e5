import WattPlan.Workflow.Draft
import WattPlan.Yaml.Tree

/-!
# Workflow files

A workflow file describes a workflow by names: jobs name their parents, and inputs the nodes that
store them. `toWorkflow` resolves the names against a catalog and draws the workflow up; `toTree`
and `ofTree?` go to and from the tree of the file, in which absent options and empty lists are left
out.
-/

namespace WattPlan

/-- An artifact as a file names it. -/
structure ArtifactEntry (α : Type) where
  name : String
  size : α
  location : Option String
deriving BEq, Repr

/-- A job as a file describes it. -/
structure JobEntry (α : Type) where
  name : String
  length : α
  parents : List String
  inputs : List (ArtifactEntry α)
  outputs : List (ArtifactEntry α)
deriving BEq, Repr

/-- A workflow as a file describes it. -/
structure WorkflowFile (α : Type) where
  name : String
  id : Option Nat
  submittedAt : α
  reliabilityGoal : Option α
  jobs : List (JobEntry α)
deriving BEq, Repr

variable {α : Type}

/-- A result of drawing up a model, as a result of a load. -/
def LoadFault.ofModel {β : Type} : Except (ModelFault α) β → Except (LoadFault α) β
  | .ok value => .ok value
  | .error fault => .error (.model fault)

/-- A result of a load that was met in a circumstance. -/
def LoadFault.within {β : Type} (circumstance : Circumstance) :
    Except (LoadFault α) β → Except (LoadFault α) β
  | .ok value => .ok value
  | .error fault => .error (.during circumstance fault)

namespace WorkflowFile

section Resolution

variable [Scalar α]

/-- Adds a dependency on each parent that an entry names. -/
def addParents (job : JobEntry α) (id : JobId) (draft : WorkflowDraft α) :
    Except (LoadFault α) (WorkflowDraft α) :=
  job.parents.foldlM (fun draft parent =>
    match draft.jobNamed? parent with
    | none => .error (.unknownParent job.name parent)
    | some parentId => LoadFault.ofModel (draft.addDependency parentId id)) draft

/-- The node that an entry names as the place of an input. -/
def locate (catalog : Catalog α) (job : JobEntry α) (input : ArtifactEntry α) :
    Except (LoadFault α) (Option NodeId) :=
  match input.location with
  | none => .ok none
  | some name =>
      match catalog.nodeNamed? name with
      | none => .error (.unknownLocation input.name job.name name)
      | some node => .ok (some node.id)

/-- Adds the inputs of an entry. -/
def addInputs (catalog : Catalog α) (job : JobEntry α) (id : JobId) (draft : WorkflowDraft α) :
    Except (LoadFault α) (WorkflowDraft α) :=
  job.inputs.foldlM (fun draft input => do
    let location ← locate catalog job input
    LoadFault.ofModel (draft.addInput id ⟨input.name, input.size, location⟩)) draft

/-- Adds the outputs of an entry. Where a file says that an output is stored has no meaning. -/
def addOutputs (job : JobEntry α) (id : JobId) (draft : WorkflowDraft α) :
    Except (LoadFault α) (WorkflowDraft α) :=
  job.outputs.foldlM (fun draft output =>
    LoadFault.ofModel (draft.addOutput id ⟨output.name, output.size, none⟩)) draft

/-- Adds the jobs of a file, which get their numbers in order. -/
def addJobs (jobs : List (JobEntry α)) (draft : WorkflowDraft α) :
    Except (LoadFault α) (WorkflowDraft α) :=
  jobs.foldlM (fun draft job => do
    let (next, _) ← LoadFault.ofModel (draft.addJob job.name job.length)
    .ok next) draft

/-- Adds what the jobs of a file depend on, read and write. -/
def addDetails (catalog : Catalog α) (jobs : List (JobEntry α)) (draft : WorkflowDraft α) :
    Except (LoadFault α) (WorkflowDraft α) :=
  jobs.zipIdx.foldlM (fun draft (job, id) => do
    let draft ← addParents job id draft
    let draft ← addInputs catalog job id draft
    addOutputs job id draft) draft

/-- The workflow of a file. A file without a number gets the given one. -/
def toWorkflow (file : WorkflowFile α) (defaultId : WorkflowId) (catalog : Catalog α) :
    Except (LoadFault α) (Workflow α) := do
  let draft := WorkflowDraft.empty (file.id.getD defaultId) file.name file.submittedAt
    file.reliabilityGoal
  let draft ← addJobs file.jobs draft
  let draft ← addDetails catalog file.jobs draft
  LoadFault.within (.dagOf file.name) (LoadFault.ofModel draft.build)

end Resolution

/-- The largest number that a document can give. -/
def largestId : Nat :=
  Nat.pow 2 64 - 1

/-- A field that is there only if it has a value. -/
def optionalField {β : Type} (key : String) (write : β → Tree α) :
    Option β → List (String × Tree α)
  | some value => [(key, write value)]
  | none => []

/-- A list field that is there only if it has members. -/
def listField {β : Type} (key : String) (write : β → Tree α) (values : List β) :
    List (String × Tree α) :=
  if values.isEmpty then [] else [(key, .sequence (values.map write))]

/-- The tree of an artifact. -/
def artifactTree (entry : ArtifactEntry α) : Tree α :=
  .mapping ([("name", .text entry.name), ("size", .quantity entry.size)] ++
    optionalField "location" .text entry.location)

/-- The tree of a job. -/
def jobTree (entry : JobEntry α) : Tree α :=
  .mapping ([("name", .text entry.name), ("length", .quantity entry.length)] ++
    listField "parents" .text entry.parents ++
    listField "inputs" artifactTree entry.inputs ++
    listField "outputs" artifactTree entry.outputs)

/-- The tree of a workflow file. -/
def toTree (file : WorkflowFile α) : Tree α :=
  .mapping ([("name", .text file.name)] ++
    optionalField "id" .whole file.id ++
    [("submitted_at", .quantity file.submittedAt)] ++
    optionalField "reliability_goal" .quantity file.reliabilityGoal ++
    [("jobs", .sequence (file.jobs.map jobTree))])

section Reading

variable [Scalar α] [Numeral α]

/-- Reads an artifact. -/
def artifactOfTree? (tree : Tree α) : Option (ArtifactEntry α) := do
  let entries ← tree.record? ["name", "size", "location"]
  some
    { name := ← Tree.required "name" Tree.text? entries
      size := ← Tree.required "size" Tree.quantity? entries
      location := ← Tree.optional "location" Tree.text? entries }

/-- Reads a job. -/
def jobOfTree? (tree : Tree α) : Option (JobEntry α) := do
  let entries ← tree.record? ["name", "length", "parents", "inputs", "outputs"]
  some
    { name := ← Tree.required "name" Tree.text? entries
      length := ← Tree.required "length" Tree.quantity? entries
      parents := ← Tree.withDefault "parents" [] (Tree.listOf? Tree.text?) entries
      inputs := ← Tree.withDefault "inputs" [] (Tree.listOf? artifactOfTree?) entries
      outputs := ← Tree.withDefault "outputs" [] (Tree.listOf? artifactOfTree?) entries }

/-- Reads a workflow file. -/
def ofTree? (tree : Tree α) : Option (WorkflowFile α) := do
  let entries ← tree.record? ["name", "id", "submitted_at", "reliability_goal", "jobs"]
  some
    { name := ← Tree.required "name" Tree.text? entries
      id := ← Tree.optional "id" (Tree.natural? largestId) entries
      submittedAt := ← Tree.withDefault "submitted_at" 0 Tree.quantity? entries
      reliabilityGoal := ← Tree.optional "reliability_goal" Tree.quantity? entries
      jobs := ← Tree.required "jobs" (Tree.listOf? jobOfTree?) entries }

end Reading

end WorkflowFile

end WattPlan
