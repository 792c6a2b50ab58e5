import WattPlan.Proofs.Edits
import WattPlan.Proofs.Workflow.Draft
import WattPlan.Workflow.Edit

/-!
# Edits of a workflow

No step in editing a workflow leaves a trace where it fails (`edit_atomic`), in the register of names
as little as in the list of jobs. So the register keeps telling the numbers of the jobs
(`Registered`), and edits lead to the draft that the steps lead to when each of them makes a new one
(`Registered.perform`).
-/

namespace WattPlan

variable {α : Type} [Scalar α]

namespace WorkflowEditor

/-- A job is registered after everything that may be wrong with it was looked at. -/
theorem addJob_atomic (name : String) (length : α) : (addJob name length).Atomic := by
  refine Edit.Reads.get.bind_atomic fun _ => (Edit.Reads.check _).bind_atomic fun _ => ?_
  refine (Edit.Reads.check _).bind_atomic fun _ => Edit.Sure.atomic ?_
  exact Edit.Sure.get.bind fun _ => (Edit.Sure.modify _).bind fun _ =>
    (Edit.Sure.modify _).bind fun _ => .pure _

omit [Scalar α] in
/-- A dependency is added after both of its jobs were found. -/
theorem addDependency_atomic (parent child : JobId) :
    (addDependency parent child : Edit (WorkflowEditor α) α Unit).Atomic := by
  refine Edit.Reads.get.bind_atomic fun _ => (Edit.Reads.check _).bind_atomic fun _ => ?_
  refine Edit.Reads.get.bind_atomic fun _ => (Edit.Reads.check _).bind_atomic fun _ => ?_
  exact (Edit.Sure.modify _).atomic

/-- An artifact is added after its job was found and its size was looked at. -/
theorem addArtifact_atomic (job : JobId) (artifact : Artifact α) (add : DraftJob α → DraftJob α) :
    (addArtifact job artifact add).Atomic := by
  refine Edit.Reads.get.bind_atomic fun _ => (Edit.Reads.check _).bind_atomic fun _ => ?_
  exact (Edit.Reads.check _).bind_atomic fun _ => (Edit.Sure.modify _).atomic

/-- A step in editing a workflow leaves no trace where it fails. -/
theorem edit_atomic (step : WorkflowDraft.Step α) : (edit step).Atomic := by
  cases step with
  | job name length => exact (addJob_atomic name length).bind_sure fun _ => .pure _
  | dependency parent child =>
      exact (addDependency_atomic parent child).bind_sure fun _ => .pure _
  | input job artifact => exact (addArtifact_atomic job artifact _).bind_sure fun _ => .pure _
  | output job artifact => exact (addArtifact_atomic job artifact _).bind_sure fun _ => .pure _

omit [Scalar α] in
/-- The number of a job by its name depends on the names only. -/
theorem jobNamed?_eq (draft : WorkflowDraft α) (name : String) :
    draft.jobNamed? name = (draft.jobs.map DraftJob.name).findIdx? fun other => other = name := by
  rw [List.findIdx?_map]
  rfl

/-- The register of an editor tells the numbers of the jobs of its draft. -/
def Registered (editor : WorkflowEditor α) : Prop :=
  ∀ name, editor.jobNamed? name = editor.draft.jobNamed? name

namespace Registered

variable {editor : WorkflowEditor α}

omit [Scalar α] in
theorem empty (id : WorkflowId) (name : String) (submittedAt : α) (goal : Option α) :
    (WorkflowEditor.empty id name submittedAt goal).Registered :=
  fun _ => rfl

omit [Scalar α] in
/-- A register that is right stays so while the names of the jobs do not change. -/
theorem congr (h : editor.Registered) {draft : WorkflowDraft α}
    (hnames : draft.jobs.map DraftJob.name = editor.draft.jobs.map DraftJob.name) :
    Registered { editor with draft } := by
  intro name
  rw [jobNamed?_eq, hnames, ← jobNamed?_eq]
  exact h name

omit [Scalar α] in
/-- A register that is right stays so with a job of a new name. -/
theorem snoc (h : editor.Registered) {name : String} (length : α)
    (hnew : editor.draft.jobNamed? name = none) :
    Registered
      { draft := { editor.draft with
          jobs := editor.draft.jobs ++ [⟨name, length, [], []⟩] }
        register := (name, editor.draft.jobs.length) :: editor.register } := by
  intro other
  have hold : editor.register.lookup other = editor.draft.jobNamed? other := h other
  rw [jobNamed?, List.lookup_cons, WorkflowDraft.jobNamed?, List.findIdx?_append,
    List.findIdx?_singleton, hold]
  by_cases hother : other = name
  · subst hother
    have hnone : editor.draft.jobs.findIdx? (fun job => job.name = other) = none := hnew
    simp [hnone]
  · simp [beq_eq_false_iff_ne.2 hother, Ne.symm hother, WorkflowDraft.jobNamed?]

omit [Scalar α] in
/-- A register that is right stays so while only artifacts are added. -/
theorem modify (h : editor.Registered) (job : JobId) {add : DraftJob α → DraftJob α}
    (hadd : ∀ entry, (add entry).name = entry.name) :
    Registered
      { editor with
        draft := { editor.draft with jobs := editor.draft.jobs.modify job add } } := by
  refine h.congr (List.ext_getElem? fun place => ?_)
  simp only [List.getElem?_map, List.getElem?_modify]
  by_cases hjob : job = place
  · simp [hjob, Function.comp_def, hadd]
  · simp [hjob]

/-- Made in place, a step comes to what it comes to with a new draft, and the register stays
right. -/
theorem apply_edit (h : editor.Registered) (step : WorkflowDraft.Step α) :
    match editor.draft.take step with
    | .ok (next, id) =>
        ∃ after, (edit step).apply editor = (.ok id, after) ∧ after.draft = next ∧ after.Registered
    | .error fault => (edit step).apply editor = (.error fault, editor) := by
  cases step with
  | job name length =>
      simp only [edit, addJob, checkName, checkLength, WorkflowDraft.take, WorkflowDraft.addJob,
        Edit.apply_bind, Edit.apply_get, Edit.apply_check]
      rw [h name]
      cases hname : editor.draft.jobNamed? name with
      | some id => rfl
      | none =>
          cases Scalar.isAmount length with
          | false => rfl
          | true => exact ⟨_, rfl, rfl, h.snoc length hname⟩
  | dependency parent child =>
      simp only [edit, addDependency, WorkflowDraft.take, WorkflowDraft.addDependency,
        Edit.apply_bind, Edit.apply_get, Edit.apply_check]
      cases editor.draft.checkJob parent with
      | error fault => rfl
      | ok =>
          dsimp only
          cases editor.draft.checkJob child with
          | error fault => rfl
          | ok => exact ⟨_, rfl, rfl, h.congr rfl⟩
  | input job artifact =>
      simp only [edit, addInput, addArtifact, WorkflowDraft.take, WorkflowDraft.addInput,
        Edit.apply_bind, Edit.apply_get, Edit.apply_check]
      cases editor.draft.checkJob job with
      | error fault => rfl
      | ok =>
          cases WorkflowDraft.checkArtifact artifact with
          | error fault => rfl
          | ok => exact ⟨_, rfl, rfl, h.modify job fun _ => rfl⟩
  | output job artifact =>
      simp only [edit, addOutput, addArtifact, WorkflowDraft.take, WorkflowDraft.addOutput,
        Edit.apply_bind, Edit.apply_get, Edit.apply_check]
      cases editor.draft.checkJob job with
      | error fault => rfl
      | ok =>
          cases WorkflowDraft.checkArtifact artifact with
          | error fault => rfl
          | ok => exact ⟨_, rfl, rfl, h.modify job fun _ => rfl⟩

/-- Made in place, steps lead to the draft that they lead to with new drafts, with the same outcomes,
and the register stays right. -/
theorem perform (h : editor.Registered) (steps : List (WorkflowDraft.Step α)) :
    (Edit.perform edit editor steps).1 = (editor.draft.perform steps).2 ∧
      (Edit.perform edit editor steps).2.draft = (editor.draft.perform steps).1 ∧
        (Edit.perform edit editor steps).2.Registered := by
  induction steps generalizing editor with
  | nil => exact ⟨rfl, rfl, h⟩
  | cons step rest ih =>
      have hstep := h.apply_edit step
      rw [Edit.perform, WorkflowDraft.perform]
      cases htake : editor.draft.take step with
      | error fault =>
          rw [htake] at hstep
          obtain ⟨houtcomes, hdraft, hregistered⟩ := ih h
          rw [hstep]
          exact ⟨congrArg _ houtcomes, hdraft, hregistered⟩
      | ok result =>
          rw [htake] at hstep
          obtain ⟨after, happly, hafter, hregistered⟩ := hstep
          obtain ⟨houtcomes, hdraft, hregistered⟩ := ih hregistered
          rw [hafter] at houtcomes hdraft
          rw [happly]
          exact ⟨congrArg _ houtcomes, hdraft, hregistered⟩

end Registered

end WorkflowEditor

end WattPlan
