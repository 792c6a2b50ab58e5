import Mathlib.Data.List.Nodup
import WattPlan.Proofs.Traversals
import WattPlan.Proofs.Workflow.Draft
import WattPlan.WorkflowFile

/-!
# The workflow of a file

A file that is accepted gives a drafted workflow with the number of the file, or the default one
(`toWorkflow_eq_ok`). `WellFormed` says when the names and the quantities of a file are in order, and
`draftOf` is the draft that such a file stands for; what is left to check then are cycles
(`toWorkflow_of_wellFormed`).
-/

namespace WattPlan

variable {α β : Type}

namespace LoadFault

theorem ofModel_eq_ok {result : Except (ModelFault α) β} {value : β} :
    ofModel result = .ok value ↔ result = .ok value := by
  cases result <;> simp [ofModel]

theorem within_eq_ok {circumstance : Circumstance} {result : Except (LoadFault α) β} {value : β} :
    within circumstance result = .ok value ↔ result = .ok value := by
  cases result <;> simp [within]

end LoadFault

variable [Scalar α]

namespace WorkflowDraft

variable {draft next : WorkflowDraft α} {id : WorkflowId}

/-- The drafts of a number that accepted steps lead to. -/
def Numbered (id : WorkflowId) (draft : WorkflowDraft α) : Prop :=
  draft.Drawn ∧ draft.id = id

theorem Numbered.addJob (h : draft.Numbered id) {name : String} {length : α} {job : JobId}
    (hadd : draft.addJob name length = .ok (next, job)) : next.Numbered id := by
  refine ⟨h.1.take _ _ (.job name length) (some job) (bind_eq_ok hadd rfl), ?_⟩
  unfold WorkflowDraft.addJob at hadd
  split at hadd
  · cases hadd
  · split at hadd
    · cases hadd
    · cases hadd
      exact h.2

theorem Numbered.addDependency (h : draft.Numbered id) {parent child : JobId}
    (hadd : draft.addDependency parent child = .ok next) : next.Numbered id := by
  refine ⟨h.1.take _ _ (.dependency parent child) none (bind_eq_ok hadd rfl), ?_⟩
  obtain ⟨-, -, hrest⟩ := exists_of_bind_eq_ok hadd
  obtain ⟨-, -, hlast⟩ := exists_of_bind_eq_ok hrest
  cases hlast
  exact h.2

theorem Numbered.addInput (h : draft.Numbered id) {job : JobId} {artifact : Artifact α}
    (hadd : draft.addInput job artifact = .ok next) : next.Numbered id := by
  refine ⟨h.1.take _ _ (.input job artifact) none (bind_eq_ok hadd rfl), ?_⟩
  obtain ⟨-, -, hrest⟩ := exists_of_bind_eq_ok hadd
  obtain ⟨-, -, hlast⟩ := exists_of_bind_eq_ok hrest
  cases hlast
  exact h.2

theorem Numbered.addOutput (h : draft.Numbered id) {job : JobId} {artifact : Artifact α}
    (hadd : draft.addOutput job artifact = .ok next) : next.Numbered id := by
  refine ⟨h.1.take _ _ (.output job artifact) none (bind_eq_ok hadd rfl), ?_⟩
  obtain ⟨-, -, hrest⟩ := exists_of_bind_eq_ok hadd
  obtain ⟨-, -, hlast⟩ := exists_of_bind_eq_ok hrest
  cases hlast
  exact h.2

omit [Scalar α] in
/-- A dependency between jobs of a draft is added. -/
theorem addDependency_ok {parent child : JobId} (hparent : parent < draft.jobs.length)
    (hchild : child < draft.jobs.length) : draft.addDependency parent child =
      .ok { draft with edges := draft.edges ++ [(parent, child)] } := by
  simp [addDependency, checkJob, hparent, hchild, bind, Except.bind]

section Artifacts

variable {before after : List (DraftJob α)} {job : DraftJob α} {artifact : Artifact α}

omit [Scalar α] in
/-- Changing the job at the place behind some others. -/
theorem modify_middle (change : DraftJob α → DraftJob α) :
    (before ++ job :: after).modify before.length change = before ++ change job :: after := by
  induction before with
  | nil => rfl
  | cons other before ih => exact congrArg (other :: ·) ih

/-- An input whose size is an amount is added to a job of a draft. -/
theorem addInput_ok (hjobs : draft.jobs = before ++ job :: after)
    (hsize : Scalar.isAmount artifact.size = true) : draft.addInput before.length artifact =
      .ok { draft with
        jobs := before ++ { job with inputs := job.inputs ++ [artifact] } :: after } := by
  simp [addInput, checkJob, checkArtifact, hjobs, hsize, bind, Except.bind, modify_middle]

/-- An output whose size is an amount is added to a job of a draft. -/
theorem addOutput_ok (hjobs : draft.jobs = before ++ job :: after)
    (hsize : Scalar.isAmount artifact.size = true) : draft.addOutput before.length artifact =
      .ok { draft with
        jobs := before ++ { job with outputs := job.outputs ++ [artifact] } :: after } := by
  simp [addOutput, checkJob, checkArtifact, hjobs, hsize, bind, Except.bind, modify_middle]

end Artifacts

omit [Scalar α] in
/-- A workflow that is built has not been planned. -/
theorem unplanned_of_build {workflow : Workflow α} (h : draft.build = .ok workflow) :
    workflow.unplanned = workflow := by
  dsimp only [build] at h
  split at h
  · cases h
  · cases h
    unfold Workflow.unplanned
    rw [List.map_map]
    rfl

omit [Scalar α] in
/-- A workflow that is built takes over what its draft says of it. -/
theorem fields_of_build {workflow : Workflow α} (h : draft.build = .ok workflow) :
    workflow.id = draft.id ∧ workflow.name = draft.name ∧
      workflow.submittedAt = draft.submittedAt ∧
      workflow.reliabilityGoal = draft.reliabilityGoal := by
  dsimp only [build] at h
  split at h
  · cases h
  · cases h
    exact ⟨rfl, rfl, rfl, rfl⟩

end WorkflowDraft

namespace WorkflowFile

variable {catalog : Catalog α} {draft last : WorkflowDraft α} {id : WorkflowId}

section Numbering

open WorkflowDraft

theorem numbered_of_addParents {job : JobEntry α} {place : JobId} (h : draft.Numbered id)
    (hadd : addParents job place draft = .ok last) : last.Numbered id := by
  refine foldlM_preserves h (fun draft parent _ next hdraft hstep => ?_) hadd
  split at hstep
  · cases hstep
  · exact hdraft.addDependency (LoadFault.ofModel_eq_ok.1 hstep)

theorem numbered_of_addInputs {job : JobEntry α} {place : JobId} (h : draft.Numbered id)
    (hadd : addInputs catalog job place draft = .ok last) : last.Numbered id := by
  refine foldlM_preserves h (fun draft input _ next hdraft hstep => ?_) hadd
  obtain ⟨location, -, hinput⟩ := exists_of_bind_eq_ok hstep
  exact hdraft.addInput (LoadFault.ofModel_eq_ok.1 hinput)

theorem numbered_of_addOutputs {job : JobEntry α} {place : JobId} (h : draft.Numbered id)
    (hadd : addOutputs job place draft = .ok last) : last.Numbered id :=
  foldlM_preserves h (fun _ _ _ _ hdraft hstep =>
    hdraft.addOutput (LoadFault.ofModel_eq_ok.1 hstep)) hadd

theorem numbered_of_addJobs {jobs : List (JobEntry α)} (h : draft.Numbered id)
    (hadd : addJobs jobs draft = .ok last) : last.Numbered id := by
  refine foldlM_preserves h (fun draft job _ next hdraft hstep => ?_) hadd
  obtain ⟨⟨added, place⟩, hjob, hnext⟩ := exists_of_bind_eq_ok hstep
  cases hnext
  exact hdraft.addJob (LoadFault.ofModel_eq_ok.1 hjob)

theorem numbered_of_addDetails {jobs : List (JobEntry α)} (h : draft.Numbered id)
    (hadd : addDetails catalog jobs draft = .ok last) : last.Numbered id := by
  refine foldlM_preserves h (fun draft entry _ next hdraft hstep => ?_) hadd
  obtain ⟨withParents, hparents, hrest⟩ := exists_of_bind_eq_ok hstep
  obtain ⟨withInputs, hinputs, houtputs⟩ := exists_of_bind_eq_ok hrest
  exact numbered_of_addOutputs (numbered_of_addInputs (numbered_of_addParents hdraft hparents)
    hinputs) houtputs

/-- A file that is accepted gives a drafted workflow that nobody has planned, under the number of
the file or, where it has none, the default one. -/
theorem toWorkflow_eq_ok {file : WorkflowFile α} {defaultId : WorkflowId} {workflow : Workflow α}
    (h : file.toWorkflow defaultId catalog = .ok workflow) :
    workflow.id = file.id.getD defaultId ∧ workflow.Drafted ∧ workflow.unplanned = workflow := by
  obtain ⟨withJobs, hjobs, hrest⟩ := exists_of_bind_eq_ok h
  obtain ⟨draft, hdetails, hbuild⟩ := exists_of_bind_eq_ok hrest
  rw [LoadFault.within_eq_ok, LoadFault.ofModel_eq_ok] at hbuild
  have hempty : (WorkflowDraft.empty (file.id.getD defaultId) file.name file.submittedAt
      file.reliabilityGoal).Numbered (file.id.getD defaultId) := ⟨.empty _ _ _ _, rfl⟩
  obtain ⟨hdrawn, hid⟩ := numbered_of_addDetails (numbered_of_addJobs hempty hjobs) hdetails
  have hunplanned := unplanned_of_build hbuild
  exact ⟨(fields_of_build hbuild).1.trans hid, ⟨draft, hdrawn, hbuild.trans (by rw [hunplanned])⟩,
    hunplanned⟩

end Numbering

/-- The artifact of an input, at the node that is named for it. -/
def located (catalog : Catalog α) (input : ArtifactEntry α) : Artifact α :=
  ⟨input.name, input.size, input.location.bind fun name => (catalog.nodeNamed? name).map Node.id⟩

/-- The artifact of an output. -/
def written (output : ArtifactEntry α) : Artifact α :=
  ⟨output.name, output.size, none⟩

/-- A job before its artifacts are added. -/
def bareJob (entry : JobEntry α) : DraftJob α :=
  ⟨entry.name, entry.length, [], []⟩

/-- The job that an entry stands for. -/
def draftJob (catalog : Catalog α) (entry : JobEntry α) : DraftJob α :=
  ⟨entry.name, entry.length, entry.inputs.map (located catalog), entry.outputs.map written⟩

/-- The number of the entry of a name. -/
def entryNamed? (jobs : List (JobEntry α)) (name : String) : Option JobId :=
  jobs.findIdx? fun entry => entry.name = name

/-- The dependencies of entries, the first of which has a given number, on those of `jobs`. -/
def dependencies (jobs : List (JobEntry α)) (first : JobId) (entries : List (JobEntry α)) :
    List (JobId × JobId) :=
  (entries.zipIdx first).flatMap fun (entry, id) =>
    (entry.parents.filterMap (entryNamed? jobs)).map (·, id)

/-- The draft that a file stands for. -/
def draftOf (file : WorkflowFile α) (defaultId : WorkflowId) (catalog : Catalog α) :
    WorkflowDraft α where
  id := file.id.getD defaultId
  name := file.name
  submittedAt := file.submittedAt
  reliabilityGoal := file.reliabilityGoal
  jobs := file.jobs.map (draftJob catalog)
  edges := dependencies file.jobs 0 file.jobs

/-- An entry whose quantities are amounts, and whose names are known. -/
structure WellFormedEntry (catalog : Catalog α) (jobs : List (JobEntry α)) (entry : JobEntry α) :
    Prop where
  length : Scalar.isAmount entry.length = true
  parents : ∀ parent ∈ entry.parents, parent ∈ jobs.map JobEntry.name
  located : ∀ input ∈ entry.inputs, ∀ name ∈ input.location, (catalog.nodeNamed? name).isSome
  sizes : ∀ artifact ∈ entry.inputs ++ entry.outputs, Scalar.isAmount artifact.size = true

/-- A file whose jobs have names of their own, and whose entries are all well-formed. -/
structure WellFormed (catalog : Catalog α) (file : WorkflowFile α) : Prop where
  names : (file.jobs.map JobEntry.name).Nodup
  entries : ∀ entry ∈ file.jobs, WellFormedEntry catalog file.jobs entry

section Drawing

variable {jobs entries : List (JobEntry α)} {entry : JobEntry α} {first : JobId}

omit [Scalar α] in
/-- Where the jobs of a draft are named as entries are, both are found under one number. -/
theorem jobNamed?_eq (hnames : draft.jobs.map DraftJob.name = jobs.map JobEntry.name)
    (name : String) : draft.jobNamed? name = entryNamed? jobs name := by
  have hfind := congrArg (List.findIdx? fun other => decide (other = name)) hnames
  rwa [List.findIdx?_map, List.findIdx?_map] at hfind

omit [Scalar α] in
/-- The entry of a name is found if there is one. -/
theorem exists_entryNamed? {name : String} (h : name ∈ jobs.map JobEntry.name) :
    ∃ place, entryNamed? jobs name = some place ∧ place < jobs.length := by
  obtain ⟨entry, hentry, rfl⟩ := List.mem_map.1 h
  have hsome : (entryNamed? jobs entry.name).isSome := by
    rw [entryNamed?, List.findIdx?_isSome, List.any_eq_true]
    exact ⟨entry, hentry, by simp⟩
  obtain ⟨place, hplace⟩ := Option.isSome_iff_exists.1 hsome
  exact ⟨place, hplace, (List.findIdx?_eq_some_iff_getElem.1 hplace).1⟩

/-- Entries with names of their own and amounts for their lengths are all added. -/
theorem addJobs_ok (hnames : (draft.jobs.map DraftJob.name ++ entries.map JobEntry.name).Nodup)
    (hlengths : ∀ entry ∈ entries, Scalar.isAmount entry.length = true) :
    addJobs entries draft = .ok { draft with jobs := draft.jobs ++ entries.map bareJob } := by
  induction entries generalizing draft with
  | nil => simp [addJobs, pure, Except.pure]
  | cons entry rest ih =>
      rw [List.forall_mem_cons] at hlengths
      have hnew : draft.jobNamed? entry.name = none := by
        rw [WorkflowDraft.jobNamed?, List.findIdx?_eq_none_iff]
        intro job hjob
        rw [List.nodup_append] at hnames
        simpa using hnames.2.2 _ (List.mem_map_of_mem hjob) _ List.mem_cons_self
      have hadd : draft.addJob entry.name entry.length =
          .ok ({ draft with jobs := draft.jobs ++ [bareJob entry] }, draft.jobs.length) := by
        simp [WorkflowDraft.addJob, hnew, hlengths.1, bareJob]
      have hrest : addJobs rest { draft with jobs := draft.jobs ++ [bareJob entry] } =
          .ok { draft with jobs := draft.jobs ++ [bareJob entry] ++ rest.map bareJob } :=
        ih (by simpa [bareJob] using hnames) hlengths.2
      rw [addJobs, List.foldlM_cons, hadd]
      refine hrest.trans ?_
      rw [List.append_assoc, ← List.map_singleton, ← List.map_append, List.singleton_append]

omit [Scalar α] in
/-- Known parents of a job of the draft are all added. -/
theorem addParents_ok (hnames : draft.jobs.map DraftJob.name = jobs.map JobEntry.name)
    {place : JobId} (hplace : place < draft.jobs.length)
    (hparents : ∀ parent ∈ entry.parents, parent ∈ jobs.map JobEntry.name) :
    addParents entry place draft = .ok
      { draft with
        edges := draft.edges ++ (entry.parents.filterMap (entryNamed? jobs)).map (·, place) } := by
  unfold addParents
  generalize entry.parents = parents at hparents
  induction parents generalizing draft with
  | nil => simp [pure, Except.pure]
  | cons parent rest ih =>
      rw [List.forall_mem_cons] at hparents
      obtain ⟨id, hfound, hid⟩ := exists_entryNamed? hparents.1
      have hlength : draft.jobs.length = jobs.length := by
        simpa using congrArg List.length hnames
      rw [List.foldlM_cons]
      refine bind_eq_ok (b := { draft with edges := draft.edges ++ [(id, place)] }) ?_ ?_
      · simp only [jobNamed?_eq hnames, hfound]
        rw [LoadFault.ofModel_eq_ok]
        exact WorkflowDraft.addDependency_ok (hlength ▸ hid) hplace
      · refine Eq.trans (ih hnames hplace hparents.2) ?_
        simp [List.filterMap_cons_some hfound]

section Artifacts

variable {before after : List (DraftJob α)} {job : DraftJob α}

/-- Inputs with known places and amounts for their sizes are all added. -/
theorem addInputs_ok (hjobs : draft.jobs = before ++ job :: after)
    (hlocated : ∀ input ∈ entry.inputs, ∀ name ∈ input.location, (catalog.nodeNamed? name).isSome)
    (hsizes : ∀ input ∈ entry.inputs, Scalar.isAmount input.size = true) :
    addInputs catalog entry before.length draft = .ok
      { draft with
        jobs := before ++
          { job with inputs := job.inputs ++ entry.inputs.map (located catalog) } :: after } := by
  have hlocate : ∀ input : ArtifactEntry α,
      (∀ name ∈ input.location, (catalog.nodeNamed? name).isSome) →
        locate catalog entry input = .ok (located catalog input).location := by
    intro input hinput
    unfold locate located
    cases hlocation : input.location with
    | none => rfl
    | some name =>
        obtain ⟨node, hnode⟩ := Option.isSome_iff_exists.1 (hinput name hlocation)
        simp [hnode]
  unfold addInputs
  generalize entry.inputs = inputs at hlocated hsizes
  induction inputs generalizing draft job with
  | nil => simp [pure, Except.pure, ← hjobs]
  | cons input rest ih =>
      rw [List.forall_mem_cons] at hlocated hsizes
      rw [List.foldlM_cons]
      refine bind_eq_ok (b := { draft with
        jobs := before ++ { job with inputs := job.inputs ++ [located catalog input] } :: after })
        ?_ ?_
      · refine bind_eq_ok (hlocate input hlocated.1) ?_
        rw [LoadFault.ofModel_eq_ok]
        exact WorkflowDraft.addInput_ok hjobs hsizes.1
      · rw [ih rfl hlocated.2 hsizes.2]
        simp

/-- Outputs with amounts for their sizes are all added. -/
theorem addOutputs_ok (hjobs : draft.jobs = before ++ job :: after)
    (hsizes : ∀ output ∈ entry.outputs, Scalar.isAmount output.size = true) :
    addOutputs entry before.length draft = .ok
      { draft with
        jobs := before ++
          { job with outputs := job.outputs ++ entry.outputs.map written } :: after } := by
  unfold addOutputs
  generalize entry.outputs = outputs at hsizes
  induction outputs generalizing draft job with
  | nil => simp [pure, Except.pure, ← hjobs]
  | cons output rest ih =>
      rw [List.forall_mem_cons] at hsizes
      rw [List.foldlM_cons]
      refine bind_eq_ok (b := { draft with
        jobs := before ++ { job with outputs := job.outputs ++ [written output] } :: after }) ?_ ?_
      · rw [LoadFault.ofModel_eq_ok]
        exact WorkflowDraft.addOutput_ok hjobs hsizes.1
      · rw [ih rfl hsizes.2]
        simp

/-- The details of well-formed entries are all added to jobs that stand behind some others. -/
theorem addDetails_ok (before : List (DraftJob α))
    (hentries : ∀ entry ∈ entries, WellFormedEntry catalog jobs entry)
    (hnames : draft.jobs.map DraftJob.name = jobs.map JobEntry.name)
    (hjobs : draft.jobs = before ++ entries.map bareJob) :
    (entries.zipIdx before.length).foldlM (fun draft (entry, id) => do
        let draft ← addParents entry id draft
        let draft ← addInputs catalog entry id draft
        addOutputs entry id draft) draft =
      .ok { draft with
        jobs := before ++ entries.map (draftJob catalog)
        edges := draft.edges ++ dependencies jobs before.length entries } := by
  induction entries generalizing draft before with
  | nil =>
      rw [List.map_nil, List.append_nil] at hjobs
      subst hjobs
      simp [dependencies, pure, Except.pure]
  | cons entry rest ih =>
      -- The jobs before this one have their details by now, and those behind it are bare.
      rw [List.forall_mem_cons] at hentries
      obtain ⟨hentry, hrest⟩ := hentries
      have hplace : before.length < draft.jobs.length := by simp [hjobs]
      rw [List.map_cons] at hjobs
      rw [List.zipIdx_cons, List.foldlM_cons]
      refine bind_eq_ok (b := { draft with
        jobs := before ++ draftJob catalog entry :: rest.map bareJob
        edges := draft.edges ++
          (entry.parents.filterMap (entryNamed? jobs)).map (·, before.length) }) ?_ ?_
      · refine bind_eq_ok (addParents_ok hnames hplace hentry.parents) (bind_eq_ok
          (addInputs_ok hjobs hentry.located fun input hinput =>
            hentry.sizes input (List.mem_append_left _ hinput)) ?_)
        rw [addOutputs_ok rfl fun output houtput =>
          hentry.sizes output (List.mem_append_right _ houtput)]
        simp [bareJob, draftJob]
      · have hlength : (before ++ [draftJob catalog entry]).length = before.length + 1 := by simp
        rw [← hlength, ih _ hrest]
        · simp [dependencies, List.zipIdx_cons]
        · rw [hjobs] at hnames
          simpa [bareJob, draftJob] using hnames
        · simp

end Artifacts

/-- A well-formed file is accepted unless its dependencies have a cycle: its workflow is built from
the draft that it stands for. -/
theorem toWorkflow_of_wellFormed {file : WorkflowFile α} (h : file.WellFormed catalog)
    (defaultId : WorkflowId) :
    file.toWorkflow defaultId catalog = LoadFault.within (.dagOf file.name)
      (LoadFault.ofModel (file.draftOf defaultId catalog).build) := by
  let start := WorkflowDraft.empty (file.id.getD defaultId) file.name file.submittedAt
    file.reliabilityGoal
  have hjobs : addJobs file.jobs start = .ok { start with jobs := file.jobs.map bareJob } :=
    addJobs_ok (by simpa [start, WorkflowDraft.empty] using h.names) fun entry hentry =>
      (h.entries entry hentry).length
  have hdetails : addDetails catalog file.jobs { start with jobs := file.jobs.map bareJob } =
      .ok (file.draftOf defaultId catalog) :=
    addDetails_ok [] h.entries (by simp [bareJob, Function.comp_def]) (List.nil_append _).symm
  show (addJobs file.jobs start >>= fun draft => addDetails catalog file.jobs draft >>=
    fun draft => LoadFault.within (.dagOf file.name) (LoadFault.ofModel draft.build)) = _
  rw [hjobs]
  show (addDetails catalog file.jobs _ >>= _) = _
  rw [hdetails]
  rfl

omit [Scalar α] in
/-- Where names differ, the entry that is found by a name is the one with this name. -/
theorem entryNamed?_eq_some (hnames : (jobs.map JobEntry.name).Nodup) {name : String}
    {place : JobId} : entryNamed? jobs name = some place ↔
      ∃ entry, jobs[place]? = some entry ∧ entry.name = name := by
  constructor
  · intro h
    obtain ⟨hplace, hname, -⟩ := List.findIdx?_eq_some_iff_getElem.1 h
    exact ⟨_, List.getElem?_eq_getElem hplace, by simpa using hname⟩
  · rintro ⟨entry, hentry, rfl⟩
    -- The search stops at some entry of the name, and there is one only.
    obtain ⟨hplace, rfl⟩ := List.getElem?_eq_some_iff.1 hentry
    obtain ⟨other, hother, hlt⟩ := exists_entryNamed? (List.mem_map_of_mem (List.getElem_mem hplace))
    have hfound := (List.findIdx?_eq_some_iff_getElem.1 hother).2.1
    have hotherName : other < (jobs.map JobEntry.name).length := by simpa using hlt
    have hplaceName : place < (jobs.map JobEntry.name).length := by simpa using hplace
    have hsame : (jobs.map JobEntry.name)[other] = (jobs.map JobEntry.name)[place] := by
      simpa using hfound
    rw [hother, (List.Nodup.getElem_inj_iff hnames).1 hsame]

omit [Scalar α] in
/-- The parents of a job of a file are the jobs that its entry lists. -/
theorem mem_parentsOf {file : WorkflowFile α} (hnames : (file.jobs.map JobEntry.name).Nodup)
    {defaultId : WorkflowId} {id parent : JobId} (hentry : file.jobs[id]? = some entry) :
    parent ∈ (file.draftOf defaultId catalog).parentsOf id ↔
      ∃ upper, file.jobs[parent]? = some upper ∧ upper.name ∈ entry.parents := by
  have hedge : (parent, id) ∈ dependencies file.jobs 0 file.jobs ↔
      ∃ upper, file.jobs[parent]? = some upper ∧ upper.name ∈ entry.parents := by
    simp only [dependencies, List.mem_flatMap, List.mem_map, List.mem_filterMap, Prod.exists,
      Prod.mk.injEq]
    constructor
    · rintro ⟨other, place, hmem, found, ⟨name, hname, hfound⟩, rfl, rfl⟩
      rw [List.mk_mem_zipIdx_iff_getElem?, hentry] at hmem
      cases hmem
      obtain ⟨upper, hupper, rfl⟩ := (entryNamed?_eq_some hnames).1 hfound
      exact ⟨upper, hupper, hname⟩
    · rintro ⟨upper, hupper, hname⟩
      exact ⟨entry, id, List.mk_mem_zipIdx_iff_getElem?.2 hentry, parent,
        ⟨upper.name, hname, (entryNamed?_eq_some hnames).2 ⟨upper, hupper, rfl⟩⟩, rfl, rfl⟩
  rw [WorkflowDraft.mem_parentsOf]
  constructor
  · rintro ⟨-, hmem⟩
    exact hedge.1 hmem
  · intro h
    have ⟨upper, hupper, _⟩ := h
    have hlt := (List.getElem?_eq_some_iff.1 hupper).1
    exact ⟨by simpa [draftOf] using hlt, hedge.2 h⟩

/-- Does a parent of an entry write an artifact of a name? -/
def isWrittenAbove (jobs : List (JobEntry α)) (entry : JobEntry α) (name : String) : Bool :=
  jobs.any fun upper => entry.parents.contains upper.name &&
    upper.outputs.any fun output => output.name = name

/-- A job of a workflow is what an entry of a file says. -/
structure Describes (catalog : Catalog α) (jobs : List (JobEntry α)) (entry : JobEntry α)
    (job : Job α) : Prop where
  name : job.name = entry.name
  length : job.length = entry.length
  nodup : job.parents.Nodup
  parents : ∀ id, id ∈ job.parents ↔
    ∃ upper, jobs[id]? = some upper ∧ upper.name ∈ entry.parents
  stored : job.storedInputs = (entry.inputs.map (located catalog)).filter fun input =>
    !isWrittenAbove jobs entry input.name
  above : job.parentInputs = (entry.inputs.map (located catalog)).filter fun input =>
    isWrittenAbove jobs entry input.name
  outputs : job.outputs = entry.outputs.map written

omit [Scalar α] in
/-- The jobs of a workflow that is built from a file are what its entries say. -/
theorem describes_of_build {file : WorkflowFile α} (hnames : (file.jobs.map JobEntry.name).Nodup)
    {defaultId : WorkflowId} {workflow : Workflow α}
    (hbuild : (file.draftOf defaultId catalog).build = .ok workflow) :
    workflow.jobs.length = file.jobs.length ∧ ∀ id job, workflow.job? id = some job →
      ∃ entry, file.jobs[id]? = some entry ∧ Describes catalog file.jobs entry job := by
  obtain ⟨layers, -, hlength, hjob⟩ := WorkflowDraft.build_eq_ok hbuild
  refine ⟨by simpa [draftOf] using hlength, fun id job hid => ?_⟩
  obtain ⟨draftEntry, hdraft, rfl⟩ := (hjob id job).1 hid
  have hget : (file.jobs[id]?).map (draftJob catalog) = some draftEntry := by
    simpa [draftOf] using hdraft
  obtain ⟨entry, hentry, rfl⟩ := Option.map_eq_some_iff.1 hget
  have hparents : ∀ parent, parent ∈ (file.draftOf defaultId catalog).parentsOf id ↔
      ∃ upper, file.jobs[parent]? = some upper ∧ upper.name ∈ entry.parents :=
    fun parent => mem_parentsOf hnames hentry
  have hwritten : ∀ name, ((file.draftOf defaultId catalog).writtenByParents id).contains name =
      isWrittenAbove file.jobs entry name := by
    intro name
    rw [Bool.eq_iff_iff, List.contains_iff_mem]
    simp only [WorkflowDraft.writtenByParents, List.mem_flatMap, hparents, isWrittenAbove,
      List.any_eq_true, Bool.and_eq_true, List.contains_iff_mem, decide_eq_true_eq]
    constructor
    · rintro ⟨parent, ⟨upper, hupper, hname⟩, hmem⟩
      refine ⟨upper, List.mem_of_getElem? hupper, hname, ?_⟩
      simpa [draftOf, hupper, draftJob, written] using hmem
    · rintro ⟨upper, hupper, hname, hmem⟩
      obtain ⟨parent, hparent⟩ := List.mem_iff_getElem?.1 hupper
      refine ⟨parent, ⟨upper, hparent, hname⟩, ?_⟩
      simpa [draftOf, hparent, draftJob, written] using hmem
  refine ⟨entry, hentry, ?_⟩
  constructor
  case name => rfl
  case length => rfl
  case nodup => exact List.nodup_range.filter _
  case parents => exact hparents
  case stored => exact List.filter_congr fun input _ => by rw [hwritten]
  case above => exact List.filter_congr fun input _ => by rw [hwritten]
  case outputs => rfl

end Drawing

end WorkflowFile

end WattPlan
