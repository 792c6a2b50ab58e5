import WattPlan.Edit
import WattPlan.Workflow.Draft

/-!
# Editing a workflow

The steps of drawing up a workflow as changes in place. The numbers of the jobs are kept by name, in
a register beside the draft.
-/

namespace WattPlan

/-- A workflow while it is edited, with the register of its jobs: a name and a number for each. -/
structure WorkflowEditor (α : Type) where
  draft : WorkflowDraft α
  register : List (String × JobId)

namespace WorkflowEditor

/-- An editor without jobs. -/
def empty {α : Type} (id : WorkflowId) (name : String) (submittedAt : α)
    (reliabilityGoal : Option α) : WorkflowEditor α :=
  ⟨.empty id name submittedAt reliabilityGoal, []⟩

variable {α : Type} [Scalar α]

/-- The number that a name is registered with. -/
def jobNamed? {α : Type} (editor : WorkflowEditor α) (name : String) : Option JobId :=
  editor.register.lookup name

/-- The rule that the name of a new job is not registered. -/
def checkName {α : Type} (editor : WorkflowEditor α) (name : String) :
    Except (ModelFault α) Unit :=
  if (editor.jobNamed? name).isSome then .error (.duplicateJob name) else .ok ()

/-- The rule that the length of a job is an amount. -/
def checkLength (name : String) (length : α) : Except (ModelFault α) Unit :=
  if Scalar.isAmount length then .ok () else .error (.invalidJobLength name length)

/-- Registers a job, puts it behind the others and gives its number, if no rule is broken. -/
def addJob (name : String) (length : α) : Edit (WorkflowEditor α) α JobId := do
  (← get).checkName name
  checkLength name length
  let id := (← get).draft.jobs.length
  modify fun editor => { editor with register := (name, id) :: editor.register }
  modify fun editor =>
    { editor with draft.jobs := editor.draft.jobs ++ [⟨name, length, [], []⟩] }
  return id

/-- Puts a dependency behind the others, if both of its jobs are there. -/
def addDependency {α : Type} (parent child : JobId) : Edit (WorkflowEditor α) α Unit := do
  (← get).draft.checkJob parent
  (← get).draft.checkJob child
  modify fun editor => { editor with draft.edges := editor.draft.edges ++ [(parent, child)] }

/-- Changes the entry of a job for an artifact, if no rule is broken. -/
def addArtifact (job : JobId) (artifact : Artifact α) (add : DraftJob α → DraftJob α) :
    Edit (WorkflowEditor α) α Unit := do
  (← get).draft.checkJob job
  WorkflowDraft.checkArtifact artifact
  modify fun editor => { editor with draft.jobs := editor.draft.jobs.modify job add }

/-- Puts an input of a job behind the others, if no rule is broken. -/
def addInput (job : JobId) (artifact : Artifact α) : Edit (WorkflowEditor α) α Unit :=
  addArtifact job artifact fun entry => { entry with inputs := entry.inputs ++ [artifact] }

/-- Puts an output of a job behind the others, if no rule is broken. -/
def addOutput (job : JobId) (artifact : Artifact α) : Edit (WorkflowEditor α) α Unit :=
  addArtifact job artifact fun entry => { entry with outputs := entry.outputs ++ [artifact] }

/-- The change that a step asks for, with the number of a job that was added. -/
def edit : WorkflowDraft.Step α → Edit (WorkflowEditor α) α (Option JobId)
  | .job name length => do return some (← addJob name length)
  | .dependency parent child => do
      addDependency parent child
      return none
  | .input job artifact => do
      addInput job artifact
      return none
  | .output job artifact => do
      addOutput job artifact
      return none

/-- Closes the draft of an editor. -/
def build {α : Type} (editor : WorkflowEditor α) : Except (ModelFault α) (Workflow α) :=
  editor.draft.build

end WorkflowEditor

end WattPlan
