import Mathlib.Data.List.Basic
import WattPlan.Proofs.Precedence
import WattPlan.Proofs.Workflow.Generations

/-!
# Workflows that a draft gives

`WorkflowDraft.Drawn` holds of the drafts that accepted steps lead to, and `Workflow.Drafted` of the
workflows that such a draft gives, also after they were planned. The generations of a draft put
every job behind its parents (`generations_findIdx_lt`), so a drafted workflow is arranged
(`Drafted.arranged`), and all its lengths and sizes are amounts (`Drafted.measured`).
-/

namespace WattPlan

namespace WorkflowDraft

variable {α : Type}

/-- A parent of a job is a job of the draft with a dependency between them. -/
theorem mem_parentsOf {draft : WorkflowDraft α} {job parent : JobId} :
    parent ∈ draft.parentsOf job ↔ parent < draft.jobs.length ∧ (parent, job) ∈ draft.edges := by
  simp [parentsOf, jobIds]

/-- A child of a job is a job of the draft with a dependency between them. -/
theorem mem_childrenOf {draft : WorkflowDraft α} {job child : JobId} :
    child ∈ draft.childrenOf job ↔ child < draft.jobs.length ∧ (job, child) ∈ draft.edges := by
  simp [childrenOf, jobIds]

/-- The generations that a build goes by, read from the table of parents. -/
theorem generates_parentTable {draft : WorkflowDraft α} {layers : List (List JobId)}
    {stuck : List JobId} :
    generations (fun job => draft.parentTable.getD job []) [] draft.jobIds = (layers, stuck) ↔
      Generates draft.parentsOf [] draft.jobIds layers stuck := by
  have hsame : ∀ job ∈ draft.jobIds, draft.parentTable.getD job [] = draft.parentsOf job := by
    intro job hjob
    simp [parentTable, jobIds, Array.getD_eq_getD_getElem?, List.mem_range.1 hjob]
  rw [← generates_iff]
  exact ⟨fun h => h.congr fun job hjob => (hsame job hjob).symm, fun h => h.congr hsame⟩

/-- What a successful build says: the generations leave no job, and every job of the workflow is an
entry of the draft that was finished. -/
theorem build_eq_ok {draft : WorkflowDraft α} {workflow : Workflow α}
    (h : draft.build = .ok workflow) :
    ∃ layers, Generates draft.parentsOf [] draft.jobIds layers [] ∧
      workflow.jobs.length = draft.jobs.length ∧
      ∀ id job, workflow.job? id = some job ↔
        ∃ entry, draft.jobs[id]? = some entry ∧ draft.finishJob layers entry id = job := by
  dsimp only [build] at h
  split at h
  · cases h
  · rename_i layers hlayers
    cases h
    refine ⟨layers, generates_parentTable.1 hlayers, by simp, fun id job => ?_⟩
    simp [Workflow.job?, List.getElem?_map, List.getElem?_zipIdx]

/-- What a build that fails says: the first job that is stuck is named. -/
theorem build_eq_error {draft : WorkflowDraft α} {fault : ModelFault α}
    (h : draft.build = .error fault) :
    ∃ layers first rest, Generates draft.parentsOf [] draft.jobIds layers (first :: rest) ∧
      fault = .cyclicWorkflow draft.name (((draft.jobs[first]?).map DraftJob.name).getD "") := by
  dsimp only [build] at h
  split at h
  · rename_i layers first rest hstuck
    cases h
    exact ⟨layers, first, rest, generates_parentTable.1 hstuck, rfl⟩
  · cases h

/-- A draft is built where the generations leave no job. -/
theorem build_of_generates {draft : WorkflowDraft α} {layers : List (List JobId)}
    (h : Generates draft.parentsOf [] draft.jobIds layers []) :
    ∃ workflow, draft.build = .ok workflow := by
  simp only [build, generates_parentTable.2 h]
  exact ⟨_, rfl⟩

/-- A workflow that is built is arranged. -/
theorem arranged_of_build {draft : WorkflowDraft α} {workflow : Workflow α}
    (h : draft.build = .ok workflow) : workflow.Arranged := by
  obtain ⟨layers, hlayers, hlength, hjob⟩ := build_eq_ok h
  have hfound : ∀ id, id < draft.jobs.length →
      ∃ entry, workflow.job? id = some (draft.finishJob layers entry id) := by
    intro id hid
    exact ⟨draft.jobs[id], (hjob id _).2 ⟨_, List.getElem?_eq_getElem hid, rfl⟩⟩
  have hentry : ∀ job ∈ workflow.jobs, ∃ entry id, id < draft.jobs.length ∧
      draft.finishJob layers entry id = job := by
    intro job hmem
    obtain ⟨id, hid⟩ := List.mem_iff_getElem?.1 hmem
    obtain ⟨entry, hget, hfinish⟩ := (hjob id job).1 hid
    exact ⟨entry, id, (List.getElem?_eq_some_iff.1 hget).1, hfinish⟩
  constructor
  case id_eq =>
    intro id job hid
    obtain ⟨entry, -, rfl⟩ := (hjob id job).1 hid
    rfl
  case parent =>
    intro job id hmem hparent
    obtain ⟨entry, place, hplace, rfl⟩ := hentry job hmem
    have hparent' : id ∈ draft.parentsOf place := hparent
    obtain ⟨hid, hedge⟩ := mem_parentsOf.1 hparent'
    obtain ⟨upper, hupper⟩ := hfound id hid
    refine ⟨_, hupper, ?_, mem_childrenOf.2 ⟨hplace, hedge⟩⟩
    have hwaiting : place ∈ draft.jobIds := by simpa [jobIds] using hplace
    exact (hlayers.findIdx_lt hwaiting List.not_mem_nil hparent').resolve_left List.not_mem_nil
  case child =>
    intro job id hmem hchild
    obtain ⟨entry, place, hplace, rfl⟩ := hentry job hmem
    have hchild' : id ∈ draft.childrenOf place := hchild
    obtain ⟨hid, hedge⟩ := mem_childrenOf.1 hchild'
    obtain ⟨lower, hlower⟩ := hfound id hid
    exact ⟨_, hlower, mem_parentsOf.2 ⟨hplace, hedge⟩⟩

variable [Scalar α]

/-- The drafts that accepted steps lead to. -/
inductive Drawn : WorkflowDraft α → Prop where
  | empty (id name submittedAt goal) : Drawn (WorkflowDraft.empty id name submittedAt goal)
  | take (draft next step id) : Drawn draft → draft.take step = .ok (next, id) → Drawn next

/-- Taking steps in turn leads from a draft to a draft, whether or not each step is accepted. -/
theorem Drawn.perform {draft : WorkflowDraft α} (h : Drawn draft) (steps : List (Step α)) :
    Drawn (draft.perform steps).1 := by
  induction steps generalizing draft with
  | nil => exact h
  | cons step rest ih =>
      rw [WorkflowDraft.perform]
      cases htake : draft.take step with
      | error fault => exact ih h
      | ok result => exact ih (h.take _ _ _ _ htake)

/-- Every length and every size in a draft is an amount. -/
def Measured (draft : WorkflowDraft α) : Prop :=
  ∀ entry ∈ draft.jobs, Scalar.isAmount entry.length = true ∧
    ∀ artifact ∈ entry.inputs ++ entry.outputs, Scalar.isAmount artifact.size = true

/-- Changing one job of a measured draft into a measured one leaves it measured. -/
theorem Measured.modify {draft : WorkflowDraft α} (h : draft.Measured) {job : JobId}
    {change : DraftJob α → DraftJob α} {artifact : Artifact α}
    (hsize : Scalar.isAmount artifact.size = true)
    (hchange : ∀ entry, (change entry).length = entry.length ∧
      ∀ other ∈ (change entry).inputs ++ (change entry).outputs,
        other ∈ entry.inputs ++ entry.outputs ∨ other = artifact) :
    Measured { draft with jobs := draft.jobs.modify job change } := by
  intro entry hentry
  obtain ⟨place, hplace⟩ := List.mem_iff_getElem?.1 hentry
  rw [List.getElem?_modify] at hplace
  obtain ⟨old, hold, hnew⟩ := Option.map_eq_some_iff.1 hplace
  have hmeasured := h old (List.mem_of_getElem? hold)
  by_cases hjob : job = place
  · simp only [hjob, if_pos] at hnew
    subst hnew
    obtain ⟨hlength, hmem⟩ := hchange old
    refine ⟨by rw [hlength]; exact hmeasured.1, fun other hother => ?_⟩
    rcases hmem other hother with hold | rfl
    · exact hmeasured.2 other hold
    · exact hsize
  · simp only [hjob, if_false] at hnew
    subst hnew
    exact hmeasured

/-- An accepted step keeps a draft measured. -/
theorem Measured.take {draft next : WorkflowDraft α} {step : Step α} {id : Option JobId}
    (h : draft.Measured) (htake : draft.take step = .ok (next, id)) : next.Measured := by
  cases step with
  | job name length =>
      simp only [WorkflowDraft.take, addJob] at htake
      split at htake
      · cases htake
      · split at htake
        · cases htake
        · rename_i hlength
          cases htake
          intro entry hentry
          rcases List.mem_append.1 hentry with hentry | hentry
          · exact h entry hentry
          · obtain rfl := List.mem_singleton.1 hentry
            exact ⟨by simpa using hlength, by simp⟩
  | dependency parent child =>
      simp only [WorkflowDraft.take, addDependency, checkJob] at htake
      split at htake
      · split at htake
        · cases htake
          exact h
        · cases htake
      · cases htake
  | input job artifact =>
      simp only [WorkflowDraft.take, addInput, checkJob, checkArtifact] at htake
      split at htake
      · split at htake
        · rename_i hsize
          cases htake
          refine h.modify hsize fun entry => ⟨rfl, fun other hother => ?_⟩
          simp only [List.mem_append, List.mem_singleton] at hother ⊢
          tauto
        · cases htake
      · cases htake
  | output job artifact =>
      simp only [WorkflowDraft.take, addOutput, checkJob, checkArtifact] at htake
      split at htake
      · split at htake
        · rename_i hsize
          cases htake
          refine h.modify hsize fun entry => ⟨rfl, fun other hother => ?_⟩
          simp only [List.mem_append, List.mem_singleton] at hother ⊢
          tauto
        · cases htake
      · cases htake

/-- The drafts that accepted steps lead to are measured. -/
theorem Drawn.measured {draft : WorkflowDraft α} (h : Drawn draft) : draft.Measured := by
  induction h with
  | empty id name submittedAt goal =>
      intro entry hentry
      cases hentry
  | take draft next step id _ htake ih => exact ih.take htake

end WorkflowDraft

namespace Workflow

variable {α : Type}

/-- A workflow as it was before it was planned. -/
def unplanned (workflow : Workflow α) : Workflow α :=
  { workflow with
    deadline := none
    jobs := workflow.jobs.map fun job => { job with binding := none } }

/-- The workflows that drafts give, also with the deadline and the bindings of earlier plans. -/
def Drafted [Scalar α] (workflow : Workflow α) : Prop :=
  ∃ draft : WorkflowDraft α, draft.Drawn ∧ draft.build = .ok workflow.unplanned

/-- Every length of a job and every size of an input is an amount. -/
def Measured [Scalar α] (workflow : Workflow α) : Prop :=
  ∀ job ∈ workflow.jobs, Scalar.isAmount job.length = true ∧
    ∀ input ∈ job.storedInputs ++ job.parentInputs, Scalar.isAmount input.size = true

/-- Planning fills in bindings and leaves a workflow as arranged as it was. -/
theorem Arranged.of_unplanned {workflow : Workflow α} (h : workflow.unplanned.Arranged) :
    workflow.Arranged := by
  have hjob : ∀ id, workflow.unplanned.job? id =
      (workflow.job? id).map fun job => { job with binding := none } := by
    intro id
    simp [job?, unplanned]
  have hmem : ∀ job ∈ workflow.jobs, { job with binding := none } ∈ workflow.unplanned.jobs :=
    fun job hmem => List.mem_map_of_mem hmem
  constructor
  case id_eq =>
    intro id job hid
    have hfound : workflow.unplanned.job? id = some { job with binding := none } := by
      rw [hjob, hid]
      rfl
    have hsame := h.id_eq hfound
    exact hsame
  case parent =>
    intro job id hjobs hparent
    obtain ⟨upper, hupper, hdepth, hchild⟩ := h.parent (hmem job hjobs) hparent
    rw [hjob] at hupper
    obtain ⟨parent, hparent, rfl⟩ := Option.map_eq_some_iff.1 hupper
    exact ⟨parent, hparent, hdepth, hchild⟩
  case child =>
    intro job id hjobs hchild
    obtain ⟨lower, hlower, hparent⟩ := h.child (hmem job hjobs) hchild
    rw [hjob] at hlower
    obtain ⟨child, hchild, rfl⟩ := Option.map_eq_some_iff.1 hlower
    exact ⟨child, hchild, hparent⟩

namespace Drafted

variable [Scalar α] {workflow : Workflow α}

/-- A drafted workflow is arranged. -/
theorem arranged (h : workflow.Drafted) : workflow.Arranged := by
  obtain ⟨draft, -, hbuild⟩ := h
  exact .of_unplanned (WorkflowDraft.arranged_of_build hbuild)

/-- A drafted workflow is measured. -/
theorem measured (h : workflow.Drafted) : workflow.Measured := by
  obtain ⟨draft, hdrawn, hbuild⟩ := h
  obtain ⟨layers, -, -, hjob⟩ := WorkflowDraft.build_eq_ok hbuild
  intro job hmem
  obtain ⟨id, hid⟩ := List.mem_iff_getElem?.1 hmem
  have hbare : workflow.unplanned.job? id = some { job with binding := none } := by
    simp [job?, unplanned, hid]
  obtain ⟨entry, hentry, hfinish⟩ := (hjob id _).1 hbare
  obtain ⟨hlength, hsize⟩ := hdrawn.measured entry (List.mem_of_getElem? hentry)
  have heq : entry.length = job.length := congrArg Job.length hfinish
  refine ⟨by rw [← heq]; exact hlength, fun input hinput => ?_⟩
  have hstored := congrArg Job.storedInputs hfinish
  have hparent := congrArg Job.parentInputs hfinish
  simp only [WorkflowDraft.finishJob] at hstored hparent
  rw [← hstored, ← hparent] at hinput
  have hlisted : input ∈ entry.inputs := by
    rcases List.mem_append.1 hinput with hinput | hinput <;> exact List.mem_of_mem_filter hinput
  exact hsize input (List.mem_append_left _ hlisted)

end Drafted

end Workflow

end WattPlan
