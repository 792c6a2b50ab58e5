import WattPlan.Proofs.Planner.Calls
import WattPlan.Proofs.Workflow.Cycles
import WattPlan.Proofs.WorkflowFile.Resolution

/-!
# The files that are accepted

A file that is accepted has passed every check on the way, so it is well-formed
(`wellFormed_of_toWorkflow`), and then nothing but a cycle of its parents can be against it: a file
is accepted just when it is well-formed and acyclic. `toWorkflow_accepts` says so, and what the
workflow is then.
-/

namespace WattPlan

variable {α : Type}

namespace WorkflowDraft

variable {draft next : WorkflowDraft α}

/-- The names of the jobs of a draft. -/
def jobNames (draft : WorkflowDraft α) : List String :=
  draft.jobs.map DraftJob.name

/-- A name of the draft is that of one of its jobs. -/
theorem mem_jobNames_of_jobNamed? {name : String} {id : JobId}
    (h : draft.jobNamed? name = some id) : name ∈ draft.jobNames := by
  obtain ⟨hid, hname, -⟩ := List.findIdx?_eq_some_iff_getElem.1 h
  exact List.mem_map.2 ⟨_, List.getElem_mem hid, by simpa using hname⟩

/-- A dependency leaves the names of the jobs. -/
theorem jobNames_addDependency {parent child : JobId}
    (h : draft.addDependency parent child = .ok next) : next.jobNames = draft.jobNames := by
  obtain ⟨-, -, hrest⟩ := exists_of_bind_eq_ok h
  obtain ⟨-, -, hlast⟩ := exists_of_bind_eq_ok hrest
  cases hlast
  rfl

/-- Changing the artifacts of a job leaves the names of the jobs. -/
theorem jobNames_modify {change : DraftJob α → DraftJob α} {id : JobId}
    (hchange : ∀ job, (change job).name = job.name) :
    (draft.jobs.modify id change).map DraftJob.name = draft.jobNames := by
  refine List.ext_getElem? fun place => ?_
  rw [List.getElem?_map, List.getElem?_modify, jobNames, List.getElem?_map]
  cases draft.jobs[place]? with
  | none => rfl
  | some job => by_cases h : id = place <;> simp [h, hchange]

variable [Scalar α]

/-- A new job has a new name and an amount for its length. -/
theorem of_addJob {name : String} {length : α} {id : JobId}
    (h : draft.addJob name length = .ok (next, id)) :
    name ∉ draft.jobNames ∧ Scalar.isAmount length = true ∧
      next.jobNames = draft.jobNames ++ [name] := by
  unfold addJob at h
  split at h
  · cases h
  · rename_i hnew
    split at h
    · cases h
    · rename_i hlength
      cases h
      refine ⟨fun hname => hnew ?_, by simpa using hlength, by simp [jobNames]⟩
      rw [jobNamed?, List.findIdx?_isSome, List.any_eq_true]
      obtain ⟨job, hjob, rfl⟩ := List.mem_map.1 hname
      exact ⟨job, hjob, by simp⟩

/-- An artifact that is added to a job, as an input or as an output, has an amount for its size, and
the jobs keep their names. -/
theorem of_addArtifact {id : JobId} {artifact : Artifact α} {change : DraftJob α → DraftJob α}
    (h : (do
      draft.checkJob id
      checkArtifact artifact
      .ok { draft with jobs := draft.jobs.modify id change }) = Except.ok next)
    (hchange : ∀ job, (change job).name = job.name) :
    Scalar.isAmount artifact.size = true ∧ next.jobNames = draft.jobNames := by
  obtain ⟨-, -, hrest⟩ := exists_of_bind_eq_ok h
  obtain ⟨⟨⟩, hcheck, hlast⟩ := exists_of_bind_eq_ok hrest
  cases hlast
  refine ⟨?_, jobNames_modify hchange⟩
  unfold checkArtifact at hcheck
  split at hcheck
  · assumption
  · cases hcheck

end WorkflowDraft

namespace WorkflowFile

variable [Scalar α] {catalog : Catalog α} {draft last : WorkflowDraft α} {entry : JobEntry α}
  {entries : List (JobEntry α)} {place : JobId} {names : List String}

section Checks

/-- Jobs that are all added have names of their own and amounts for their lengths. -/
theorem of_addJobs (hnodup : draft.jobNames.Nodup) (h : addJobs entries draft = .ok last) :
    (draft.jobNames ++ entries.map JobEntry.name).Nodup ∧
      last.jobNames = draft.jobNames ++ entries.map JobEntry.name ∧
      ∀ entry ∈ entries, Scalar.isAmount entry.length = true := by
  induction entries generalizing draft with
  | nil =>
      cases h
      simpa using hnodup
  | cons entry rest ih =>
      rw [addJobs, List.foldlM_cons] at h
      obtain ⟨next, hstep, hrest⟩ := exists_of_bind_eq_ok h
      obtain ⟨⟨added, id⟩, hadd, hnext⟩ := exists_of_bind_eq_ok hstep
      cases hnext
      obtain ⟨hnew, hlength, hnames⟩ :=
        WorkflowDraft.of_addJob (LoadFault.ofModel_eq_ok.1 hadd)
      have hadded : next.jobNames.Nodup := by
        rw [hnames]
        exact List.Nodup.append hnodup (List.nodup_singleton _) (by simpa using hnew)
      obtain ⟨hall, hlast, hlengths⟩ := ih hadded hrest
      rw [hnames, List.append_assoc, List.singleton_append] at hall hlast
      exact ⟨hall, hlast, List.forall_mem_cons.2 ⟨hlength, hlengths⟩⟩

omit [Scalar α] in
/-- Parents that are all added are names of jobs of the draft, which keep their names. -/
theorem of_addParents (hnames : draft.jobNames = names)
    (h : addParents entry place draft = .ok last) :
    last.jobNames = names ∧ ∀ parent ∈ entry.parents, parent ∈ names := by
  refine foldlM_forall (I := fun draft => draft.jobNames = names) hnames ?_ h
  intro draft parent _ next hdraft hstep
  split at hstep
  · cases hstep
  · rename_i id hid
    have hnext := WorkflowDraft.jobNames_addDependency (LoadFault.ofModel_eq_ok.1 hstep)
    rw [← hdraft]
    exact ⟨hnext, WorkflowDraft.mem_jobNames_of_jobNamed? hid⟩

/-- Inputs that are all added have known places and amounts for their sizes. -/
theorem of_addInputs (hnames : draft.jobNames = names)
    (h : addInputs catalog entry place draft = .ok last) :
    last.jobNames = names ∧ ∀ input ∈ entry.inputs,
      (∀ name ∈ input.location, (catalog.nodeNamed? name).isSome) ∧
        Scalar.isAmount input.size = true := by
  refine foldlM_forall (I := fun draft => draft.jobNames = names) hnames ?_ h
  intro draft input _ next hdraft hstep
  obtain ⟨location, hlocate, hadd⟩ := exists_of_bind_eq_ok hstep
  obtain ⟨hsize, hnext⟩ :=
    WorkflowDraft.of_addArtifact (LoadFault.ofModel_eq_ok.1 hadd) fun _ => rfl
  refine ⟨hnext.trans hdraft, fun name hname => ?_, hsize⟩
  unfold locate at hlocate
  rw [Option.mem_def.1 hname] at hlocate
  dsimp only at hlocate
  split at hlocate
  · cases hlocate
  · rename_i node hnode
    rw [hnode]
    rfl

/-- Outputs that are all added have amounts for their sizes. -/
theorem of_addOutputs (hnames : draft.jobNames = names)
    (h : addOutputs entry place draft = .ok last) :
    last.jobNames = names ∧ ∀ output ∈ entry.outputs, Scalar.isAmount output.size = true := by
  refine foldlM_forall (I := fun draft => draft.jobNames = names) hnames ?_ h
  intro draft output _ next hdraft hstep
  obtain ⟨hsize, hnext⟩ :=
    WorkflowDraft.of_addArtifact (LoadFault.ofModel_eq_ok.1 hstep) fun _ => rfl
  exact ⟨hnext.trans hdraft, hsize⟩

/-- What an entry names is known, and the sizes of its artifacts are amounts. -/
def Checked (catalog : Catalog α) (names : List String) (entry : JobEntry α) : Prop :=
  (∀ parent ∈ entry.parents, parent ∈ names) ∧
    (∀ input ∈ entry.inputs, ∀ name ∈ input.location, (catalog.nodeNamed? name).isSome) ∧
    ∀ artifact ∈ entry.inputs ++ entry.outputs, Scalar.isAmount artifact.size = true

/-- Entries whose details are all added have passed the checks. -/
theorem of_addDetails (hnames : draft.jobNames = names)
    (h : addDetails catalog entries draft = .ok last) :
    ∀ entry ∈ entries, Checked catalog names entry := by
  have hall : last.jobNames = names ∧
      ∀ place ∈ entries.zipIdx, Checked catalog names place.1 := by
    refine foldlM_forall (I := fun draft => draft.jobNames = names) hnames ?_ h
    rintro draft ⟨entry, id⟩ - next hdraft hstep
    obtain ⟨withParents, hparents, hrest⟩ := exists_of_bind_eq_ok hstep
    obtain ⟨withInputs, hinputs, houtputs⟩ := exists_of_bind_eq_ok hrest
    obtain ⟨hfirst, hknown⟩ := of_addParents hdraft hparents
    obtain ⟨hsecond, hchecked⟩ := of_addInputs hfirst hinputs
    obtain ⟨hthird, hsizes⟩ := of_addOutputs hsecond houtputs
    refine ⟨hthird, hknown, fun input hinput => (hchecked input hinput).1, ?_⟩
    exact List.forall_mem_append.2 ⟨fun input hinput => (hchecked input hinput).2, hsizes⟩
  intro entry hentry
  obtain ⟨id, hid⟩ := List.mem_iff_getElem?.1 hentry
  exact hall.2 (entry, id) (List.mk_mem_zipIdx_iff_getElem?.2 hid)

/-- A file that is accepted is well-formed. -/
theorem wellFormed_of_toWorkflow {file : WorkflowFile α} {defaultId : WorkflowId}
    {workflow : Workflow α} (h : file.toWorkflow defaultId catalog = .ok workflow) :
    file.WellFormed catalog := by
  obtain ⟨withJobs, hjobs, hrest⟩ := exists_of_bind_eq_ok h
  obtain ⟨draft, hdetails, -⟩ := exists_of_bind_eq_ok hrest
  have hempty : (WorkflowDraft.empty (file.id.getD defaultId) file.name file.submittedAt
      file.reliabilityGoal).jobNames.Nodup := List.nodup_nil
  obtain ⟨hnodup, hnames, hlengths⟩ := of_addJobs hempty hjobs
  have hchecked := of_addDetails hnames hdetails
  constructor
  case names => exact hnodup
  case entries =>
    intro entry hentry
    obtain ⟨hparents, hlocated, hsizes⟩ := hchecked entry hentry
    exact ⟨hlengths entry hentry, hparents, hlocated, hsizes⟩

end Checks

section Cycles

/-- A job of a file is listed as a parent of another one. -/
def IsParent (file : WorkflowFile α) (parent child : JobId) : Prop :=
  ∃ upper lower, file.jobs[parent]? = some upper ∧ file.jobs[child]? = some lower ∧
    upper.name ∈ lower.parents

/-- No job of a file is above itself. -/
def Acyclic (file : WorkflowFile α) : Prop :=
  ∀ job, ¬ Relation.TransGen file.IsParent job job

omit [Scalar α] in
/-- The dependencies of the draft of a file are its parents. -/
theorem dependsOn_draftOf {file : WorkflowFile α} (hnames : (file.jobs.map JobEntry.name).Nodup)
    (defaultId : WorkflowId) : (file.draftOf defaultId catalog).DependsOn = file.IsParent := by
  funext parent child
  refine propext ⟨?_, ?_⟩
  · rintro ⟨hchild, hparent⟩
    have hlt : child < file.jobs.length := by simpa [WorkflowDraft.jobIds, draftOf] using hchild
    have hlower := List.getElem?_eq_getElem hlt
    obtain ⟨upper, hupper, hname⟩ := (mem_parentsOf hnames hlower).1 hparent
    exact ⟨upper, _, hupper, hlower, hname⟩
  · rintro ⟨upper, lower, hupper, hlower, hname⟩
    have hlt := (List.getElem?_eq_some_iff.1 hlower).1
    exact ⟨by simpa [WorkflowDraft.jobIds, draftOf] using hlt,
      (mem_parentsOf hnames hlower).2 ⟨upper, hupper, hname⟩⟩

/-- A file is accepted just when it is well-formed and acyclic. -/
theorem exists_toWorkflow_iff (file : WorkflowFile α) (defaultId : WorkflowId)
    (catalog : Catalog α) : (∃ workflow, file.toWorkflow defaultId catalog = .ok workflow) ↔
      file.WellFormed catalog ∧ file.Acyclic := by
  have hiff : file.WellFormed catalog →
      ((∃ workflow, file.toWorkflow defaultId catalog = .ok workflow) ↔ file.Acyclic) := by
    intro hwell
    have hbuild := (file.draftOf defaultId catalog).build_iff_acyclic
    rw [dependsOn_draftOf hwell.names] at hbuild
    simp only [toWorkflow_of_wellFormed hwell, LoadFault.within_eq_ok, LoadFault.ofModel_eq_ok]
    exact hbuild
  constructor
  · rintro ⟨workflow, h⟩
    have hwell := wellFormed_of_toWorkflow h
    exact ⟨hwell, (hiff hwell).1 ⟨workflow, h⟩⟩
  · rintro ⟨hwell, hacyclic⟩
    exact (hiff hwell).2 hacyclic

end Cycles

omit [Scalar α] in
/-- The inputs of a job are those that its entry lists, stored ones and those of parents each in
their order. -/
theorem Describes.inputs {jobs : List (JobEntry α)} {job : Job α}
    (h : Describes catalog jobs entry job) :
    (job.storedInputs ++ job.parentInputs).Perm (entry.inputs.map (located catalog)) ∧
      job.storedInputs.Sublist (entry.inputs.map (located catalog)) ∧
      job.parentInputs.Sublist (entry.inputs.map (located catalog)) := by
  rw [h.stored, h.above]
  exact ⟨List.perm_append_comm.trans (List.filter_append_perm _ _), List.filter_sublist,
    List.filter_sublist⟩

/-- In a well-formed entry the place that is named for an input is a node of the catalog, and the
artifact is at the node of this name. -/
theorem WellFormedEntry.location_eq {jobs : List (JobEntry α)}
    (h : WellFormedEntry catalog jobs entry) {input : ArtifactEntry α}
    (hinput : input ∈ entry.inputs) {name : String} (hname : input.location = some name) :
    ∃ node ∈ catalog.nodes, node.name = name ∧
      (WorkflowFile.located catalog input).location = some node.id := by
  obtain ⟨node, hnode⟩ := Option.isSome_iff_exists.1 (h.located input hinput name hname)
  refine ⟨node, List.mem_of_find?_eq_some hnode, by simpa using List.find?_some hnode, ?_⟩
  simp [WorkflowFile.located, hname, hnode]

/-- A file is accepted just when it is well-formed and acyclic. The workflow has then the number,
the name, the submission and the goal of the file and one job for each entry, in their order: with
the name, the length and the outputs of the entry, the jobs that it lists for parents, each of them
once, and its inputs, at the nodes that it names. -/
theorem toWorkflow_accepts (file : WorkflowFile α) (defaultId : WorkflowId)
    (catalog : Catalog α) :
    ((∃ workflow, file.toWorkflow defaultId catalog = .ok workflow) ↔
      file.WellFormed catalog ∧ file.Acyclic) ∧
    ∀ workflow, file.toWorkflow defaultId catalog = .ok workflow →
      (workflow.id = file.id.getD defaultId ∧ workflow.name = file.name ∧
        workflow.submittedAt = file.submittedAt ∧
        workflow.reliabilityGoal = file.reliabilityGoal) ∧
      workflow.jobs.length = file.jobs.length ∧
      ∀ id job, workflow.job? id = some job → ∃ entry, file.jobs[id]? = some entry ∧
        Describes catalog file.jobs entry job ∧
        ((job.storedInputs ++ job.parentInputs).Perm (entry.inputs.map (located catalog)) ∧
          job.storedInputs.Sublist (entry.inputs.map (located catalog)) ∧
          job.parentInputs.Sublist (entry.inputs.map (located catalog))) ∧
        ∀ input ∈ entry.inputs, ∀ name, input.location = some name →
          ∃ node ∈ catalog.nodes, node.name = name ∧
            (located catalog input).location = some node.id := by
  refine ⟨exists_toWorkflow_iff file defaultId catalog, fun workflow h => ?_⟩
  have hwell := wellFormed_of_toWorkflow h
  rw [toWorkflow_of_wellFormed hwell, LoadFault.within_eq_ok, LoadFault.ofModel_eq_ok] at h
  obtain ⟨hlength, hjobs⟩ := describes_of_build hwell.names h
  refine ⟨WorkflowDraft.fields_of_build h, hlength, fun id job hjob => ?_⟩
  obtain ⟨entry, hentry, hdescribes⟩ := hjobs id job hjob
  have hchecked := hwell.entries entry (List.mem_of_getElem? hentry)
  exact ⟨entry, hentry, hdescribes, hdescribes.inputs,
    fun input hinput name hname => hchecked.location_eq hinput hname⟩

end WorkflowFile

/-!
## A file that refers ahead

Three jobs of which the first one has the other two as parents, one of them listed twice.
-/

namespace Ahead

open Exact Chain

def file : WorkflowFile (Exact ℚ) where
  name := "ahead"
  id := none
  submittedAt := finite 0
  reliabilityGoal := none
  jobs :=
    [⟨"join", finite 3, ["left", "right", "left"],
        [⟨"seed", finite 6, some "slow"⟩, ⟨"part", finite 2, none⟩], []⟩,
      ⟨"left", finite 4, [], [], [⟨"part", finite 2, none⟩]⟩,
      ⟨"right", finite 5, ["left"], [], []⟩]

theorem file_wellFormed : file.WellFormed catalog := by
  constructor
  case names => decide
  case entries =>
    have hchecked : ∀ entry ∈ file.jobs, Scalar.isAmount entry.length = true ∧
        WorkflowFile.Checked catalog (file.jobs.map JobEntry.name) entry := by
      unfold WorkflowFile.Checked
      decide +kernel
    intro entry hentry
    obtain ⟨hlength, hparents, hlocated, hsizes⟩ := hchecked entry hentry
    exact ⟨hlength, hparents, hlocated, hsizes⟩

/-- The parents of the file come in the order of the second, the third and the first job. -/
theorem file_acyclic : file.Acyclic := by
  refine not_transGen_self (fun id => [2, 0, 1].getD id 0) ?_
  rintro parent child ⟨upper, lower, hupper, hlower, hname⟩
  have hparent : parent < 3 := (List.getElem?_eq_some_iff.1 hupper).1
  have hchild : child < 3 := (List.getElem?_eq_some_iff.1 hlower).1
  interval_cases parent <;> interval_cases child <;> cases hupper <;> cases hlower <;>
    revert hname <;> decide

/-- The file is accepted: the first job has the other two as parents, and its inputs are one that is
stored and one that the second job writes. -/
theorem file_accepted : file.WellFormed catalog ∧ file.Acyclic ∧
    ∃ workflow, file.toWorkflow 4 catalog = .ok workflow ∧ workflow.id = 4 ∧
      workflow.jobs.length = 3 ∧ ∃ job, workflow.job? 0 = some job ∧ job.name = "join" ∧
        job.parents.Nodup ∧ (∀ id, id ∈ job.parents ↔ id = 1 ∨ id = 2) ∧
        job.storedInputs = [⟨"seed", finite 6, some 0⟩] ∧
        job.parentInputs = [⟨"part", finite 2, none⟩] := by
  obtain ⟨hiff, hall⟩ := WorkflowFile.toWorkflow_accepts file 4 catalog
  obtain ⟨workflow, h⟩ := hiff.2 ⟨file_wellFormed, file_acyclic⟩
  obtain ⟨⟨hid, -⟩, hlength, hjobs⟩ := hall workflow h
  have hfirst : 0 < workflow.jobs.length := by
    rw [hlength]
    decide
  obtain ⟨job, hjob⟩ := Workflow.job?_isSome hfirst
  obtain ⟨entry, hentry, hdescribes, -⟩ := hjobs 0 job hjob
  cases hentry
  refine ⟨file_wellFormed, file_acyclic, workflow, h, hid, hlength, job, hjob, hdescribes.name,
    hdescribes.nodup, fun id => ?_, ?_, ?_⟩
  · rw [hdescribes.parents]
    constructor
    · rintro ⟨upper, hupper, hname⟩
      have hlt : id < 3 := (List.getElem?_eq_some_iff.1 hupper).1
      interval_cases id <;> cases hupper <;> revert hname <;> decide
    · rintro (rfl | rfl) <;> exact ⟨_, rfl, by decide⟩
  · rw [hdescribes.stored]
    decide +kernel
  · rw [hdescribes.above]
    decide +kernel

end Ahead

end WattPlan
