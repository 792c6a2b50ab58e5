import WattPlan.Workflow

/-!
# Drawing up a workflow

A draft takes jobs, dependencies and artifacts one at a time and refuses what breaks a rule,
leaving the draft as it was. `build` settles the jobs generation by generation: a job is settled
once all its parents are, and its depth is the number of its generation. What is never settled
depends on a cycle.
-/

namespace WattPlan

/-- A job while its workflow is drawn up. -/
structure DraftJob (α : Type) where
  name : String
  length : α
  inputs : List (Artifact α)
  outputs : List (Artifact α)
deriving DecidableEq, Repr

/-- A workflow while it is drawn up. A dependency is a pair of parent and child. -/
structure WorkflowDraft (α : Type) where
  id : WorkflowId
  name : String
  submittedAt : α
  reliabilityGoal : Option α
  jobs : List (DraftJob α)
  edges : List (JobId × JobId)
deriving DecidableEq, Repr

/-- Are all parents of a job among the settled ones? -/
def isReady (parents : JobId → List JobId) (settled : List JobId) (job : JobId) : Bool :=
  (parents job).all settled.contains

/-- The waiting jobs whose parents are all settled. -/
def readyJobs (parents : JobId → List JobId) (settled waiting : List JobId) : List JobId :=
  waiting.filter fun job => isReady parents settled job

/-- The waiting jobs with a parent that is not settled. -/
def blockedJobs (parents : JobId → List JobId) (settled waiting : List JobId) : List JobId :=
  waiting.filter fun job => !isReady parents settled job

/-- Where a job is ready, fewer jobs are blocked than wait. -/
theorem length_blockedJobs_lt {parents : JobId → List JobId} {settled waiting : List JobId}
    (h : (readyJobs parents settled waiting).isEmpty = false) :
    (blockedJobs parents settled waiting).length < waiting.length := by
  obtain ⟨job, mem⟩ := List.isEmpty_eq_false_iff_exists_mem.1 h
  obtain ⟨mem, ready⟩ := List.mem_filter.1 mem
  exact List.length_filter_lt_length_iff_exists.2 ⟨job, mem, by simp [ready]⟩

/-- The jobs of `waiting` in generations: each generation holds those whose parents all came
before. The second part is what stays when a generation would be empty. -/
def generations (parents : JobId → List JobId) (settled waiting : List JobId) :
    List (List JobId) × List JobId :=
  if _h : (readyJobs parents settled waiting).isEmpty = false then
    let ready := readyJobs parents settled waiting
    let (later, stuck) :=
      generations parents (settled ++ ready) (blockedJobs parents settled waiting)
    (ready :: later, stuck)
  else ([], waiting)
termination_by waiting.length
decreasing_by exact length_blockedJobs_lt _h

namespace WorkflowDraft

/-- A draft without jobs. -/
def empty {α : Type} (id : WorkflowId) (name : String) (submittedAt : α)
    (reliabilityGoal : Option α) : WorkflowDraft α :=
  ⟨id, name, submittedAt, reliabilityGoal, [], []⟩

variable {α : Type} [Scalar α]

/-- The number of the job of a name. -/
def jobNamed? {α : Type} (draft : WorkflowDraft α) (name : String) : Option JobId :=
  draft.jobs.findIdx? fun job => job.name = name

/-- Adds a job and gives its number. -/
def addJob (draft : WorkflowDraft α) (name : String) (length : α) :
    Except (ModelFault α) (WorkflowDraft α × JobId) :=
  if (draft.jobNamed? name).isSome then .error (.duplicateJob name)
  else if !Scalar.isAmount length then .error (.invalidJobLength name length)
  else .ok ({ draft with jobs := draft.jobs ++ [⟨name, length, [], []⟩] }, draft.jobs.length)

/-- The rule that a job of a draft has a number below that of the next one. -/
def checkJob {α : Type} (draft : WorkflowDraft α) (job : JobId) : Except (ModelFault α) Unit :=
  if job < draft.jobs.length then .ok () else .error (.unknownJob job)

/-- The rule that the size of an artifact is an amount. -/
def checkArtifact (artifact : Artifact α) : Except (ModelFault α) Unit :=
  if Scalar.isAmount artifact.size then .ok ()
  else .error (.invalidArtifactSize artifact.name artifact.size)

/-- Makes one job depend on another. -/
def addDependency {α : Type} (draft : WorkflowDraft α) (parent child : JobId) :
    Except (ModelFault α) (WorkflowDraft α) := do
  draft.checkJob parent
  draft.checkJob child
  .ok { draft with edges := draft.edges ++ [(parent, child)] }

/-- Gives a job one more input. -/
def addInput (draft : WorkflowDraft α) (job : JobId) (artifact : Artifact α) :
    Except (ModelFault α) (WorkflowDraft α) := do
  draft.checkJob job
  checkArtifact artifact
  let add := fun entry : DraftJob α => { entry with inputs := entry.inputs ++ [artifact] }
  .ok { draft with jobs := draft.jobs.modify job add }

/-- Gives a job one more output. -/
def addOutput (draft : WorkflowDraft α) (job : JobId) (artifact : Artifact α) :
    Except (ModelFault α) (WorkflowDraft α) := do
  draft.checkJob job
  checkArtifact artifact
  let add := fun entry : DraftJob α => { entry with outputs := entry.outputs ++ [artifact] }
  .ok { draft with jobs := draft.jobs.modify job add }

/-- The numbers of the jobs of a draft. -/
def jobIds {α : Type} (draft : WorkflowDraft α) : List JobId :=
  List.range draft.jobs.length

/-- The jobs that a job depends on, by number. -/
def parentsOf {α : Type} (draft : WorkflowDraft α) (job : JobId) : List JobId :=
  let parents := (draft.edges.filter fun edge => edge.2 = job).map Prod.fst
  draft.jobIds.filter parents.contains

/-- What each job depends on, at the place of its number. -/
def parentTable {α : Type} (draft : WorkflowDraft α) : Array (List JobId) :=
  (draft.jobIds.map draft.parentsOf).toArray

/-- The jobs that depend on a job, by number. -/
def childrenOf {α : Type} (draft : WorkflowDraft α) (job : JobId) : List JobId :=
  let children := (draft.edges.filter fun edge => edge.1 = job).map Prod.snd
  draft.jobIds.filter children.contains

/-- The names of the artifacts that some parent of a job writes. -/
def writtenByParents {α : Type} (draft : WorkflowDraft α) (job : JobId) : List String :=
  (draft.parentsOf job).flatMap fun parent =>
    ((draft.jobs[parent]?).map fun entry => entry.outputs.map Artifact.name).getD []

/-- The job of a draft as it stands in the workflow. -/
def finishJob {α : Type} (draft : WorkflowDraft α) (layers : List (List JobId))
    (entry : DraftJob α) (id : JobId) : Job α :=
  let written := draft.writtenByParents id
  { id
    name := entry.name
    length := entry.length
    depth := layers.findIdx fun layer => layer.contains id
    parents := draft.parentsOf id
    children := draft.childrenOf id
    storedInputs := entry.inputs.filter fun input => !written.contains input.name
    parentInputs := entry.inputs.filter fun input => written.contains input.name
    outputs := entry.outputs
    binding := none }

/-- Closes a draft whose dependencies have no cycle. Otherwise the first job that cannot be settled
is named. -/
def build {α : Type} (draft : WorkflowDraft α) : Except (ModelFault α) (Workflow α) :=
  let parents := draft.parentTable
  match generations (fun job => parents.getD job []) [] draft.jobIds with
  | (_, stuck :: _) =>
      .error (.cyclicWorkflow draft.name
        (((draft.jobs[stuck]?).map DraftJob.name).getD ""))
  | (layers, []) =>
      .ok
        { id := draft.id
          name := draft.name
          submittedAt := draft.submittedAt
          reliabilityGoal := draft.reliabilityGoal
          deadline := none
          jobs := draft.jobs.zipIdx.map fun (entry, id) => draft.finishJob layers entry id }

/-- One step of drawing up a workflow. -/
inductive Step (α : Type) where
  | job (name : String) (length : α)
  | dependency (parent child : JobId)
  | input (job : JobId) (artifact : Artifact α)
  | output (job : JobId) (artifact : Artifact α)

/-- Takes one step: the draft after it, and the number of a job that was added. -/
def take (draft : WorkflowDraft α) :
    Step α → Except (ModelFault α) (WorkflowDraft α × Option JobId)
  | .job name length => do
      let (next, id) ← draft.addJob name length
      .ok (next, some id)
  | .dependency parent child => do .ok (← draft.addDependency parent child, none)
  | .input job artifact => do .ok (← draft.addInput job artifact, none)
  | .output job artifact => do .ok (← draft.addOutput job artifact, none)

/-- Takes steps in turn, passing over those that fail: the draft after them and the outcome of each
one. -/
def perform (draft : WorkflowDraft α) :
    List (Step α) → WorkflowDraft α × List (Except (ModelFault α) (Option JobId))
  | [] => (draft, [])
  | step :: rest =>
      match draft.take step with
      | .ok (next, id) =>
          let (last, outcomes) := perform next rest
          (last, .ok id :: outcomes)
      | .error fault =>
          let (last, outcomes) := perform draft rest
          (last, .error fault :: outcomes)

end WorkflowDraft

end WattPlan
