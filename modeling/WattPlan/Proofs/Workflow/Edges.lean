import WattPlan.Proofs.Workflow.Draft

/-!
# Dependencies of a draft

The dependencies of a draft are those of the steps that were accepted, in their order
(`eq_of_perform`), and they lie between jobs of the draft (`Drawn.edge_lt`). Building a draft looks
at which dependencies there are, not at how often or in which order they were added
(`build_congr`).
-/

namespace WattPlan

/-- One of some dependencies leads from a job to another one. -/
def Leads (edges : List (JobId × JobId)) (parent child : JobId) : Prop :=
  (parent, child) ∈ edges

namespace WorkflowDraft

variable {α : Type}

/-- The dependency that a step asks for, if it does. -/
def Step.edges : Step α → List (JobId × JobId)
  | .dependency parent child => [(parent, child)]
  | .job _ _ | .input _ _ | .output _ _ => []

/-- The dependencies among some steps that were accepted, by the outcomes of the steps. -/
def acceptedEdges (steps : List (Step α))
    (outcomes : List (Except (ModelFault α) (Option JobId))) : List (JobId × JobId) :=
  (steps.zip outcomes).flatMap fun (step, outcome) => if outcome.isOk then step.edges else []

/-- An accepted step contributes the dependency that it asks for. -/
theorem acceptedEdges_cons_ok (step : Step α) (steps : List (Step α)) (added : Option JobId)
    (outcomes : List (Except (ModelFault α) (Option JobId))) :
    acceptedEdges (step :: steps) (.ok added :: outcomes) =
      step.edges ++ acceptedEdges steps outcomes :=
  rfl

/-- A refused step contributes nothing. -/
theorem acceptedEdges_cons_error (step : Step α) (steps : List (Step α)) (fault : ModelFault α)
    (outcomes : List (Except (ModelFault α) (Option JobId))) :
    acceptedEdges (step :: steps) (.error fault :: outcomes) = acceptedEdges steps outcomes :=
  rfl

section Steps

variable [Scalar α] {draft next : WorkflowDraft α} {step : Step α} {added : Option JobId}

/-- What an accepted step changes: it may add jobs or change their artifacts, and the dependency
that it asks for is added behind the others if both its jobs are there. -/
theorem take_eq_ok (h : draft.take step = .ok (next, added)) :
    next = { draft with jobs := next.jobs, edges := draft.edges ++ step.edges } ∧
      draft.jobs.length ≤ next.jobs.length ∧
      ∀ edge ∈ step.edges, edge.1 < draft.jobs.length ∧ edge.2 < draft.jobs.length := by
  cases step with
  | job name length =>
      simp only [take, addJob] at h
      split at h
      · cases h
      · split at h
        · cases h
        · cases h
          simp [Step.edges]
  | dependency parent child =>
      simp only [take, addDependency, checkJob] at h
      split at h
      · split at h
        · rename_i hparent hchild
          cases h
          simp [Step.edges, hparent, hchild]
        · cases h
      · cases h
  | input job artifact =>
      simp only [take, addInput, checkJob, checkArtifact] at h
      split at h
      · split at h
        · cases h
          simp [Step.edges]
        · cases h
      · cases h
  | output job artifact =>
      simp only [take, addOutput, checkJob, checkArtifact] at h
      split at h
      · split at h
        · cases h
          simp [Step.edges]
        · cases h
      · cases h

/-- The steps that were accepted add their dependencies, and nothing but jobs, artifacts and
dependencies changes. -/
theorem perform_eq (draft : WorkflowDraft α) (steps : List (Step α)) :
    (draft.perform steps).1 = { draft with
      jobs := (draft.perform steps).1.jobs
      edges := draft.edges ++ acceptedEdges steps (draft.perform steps).2 } := by
  induction steps generalizing draft with
  | nil => simp [perform, acceptedEdges]
  | cons step rest ih =>
      rw [perform]
      cases htake : draft.take step with
      | error fault =>
          dsimp only
          rw [acceptedEdges_cons_error]
          exact ih draft
      | ok result =>
          obtain ⟨next, added⟩ := result
          have hrest := ih next
          dsimp only
          rw [acceptedEdges_cons_ok]
          generalize next.perform rest = last at hrest ⊢
          rw [(take_eq_ok htake).1] at hrest
          simpa using hrest

/-- A draft that steps draw up is drawn. -/
theorem Drawn.of_perform {id : WorkflowId} {name : String} {submittedAt : α} {goal : Option α}
    {steps : List (Step α)} {outcomes : List (Except (ModelFault α) (Option JobId))}
    (h : (WorkflowDraft.empty id name submittedAt goal).perform steps = (draft, outcomes)) :
    draft.Drawn := by
  have hall := (Drawn.empty id name submittedAt goal).perform steps
  rwa [h] at hall

/-- A draft that steps draw up has the dependencies of the accepted steps. -/
theorem eq_of_perform {id : WorkflowId} {name : String} {submittedAt : α} {goal : Option α}
    {steps : List (Step α)} {outcomes : List (Except (ModelFault α) (Option JobId))}
    (h : (WorkflowDraft.empty id name submittedAt goal).perform steps = (draft, outcomes)) :
    draft = ⟨id, name, submittedAt, goal, draft.jobs, acceptedEdges steps outcomes⟩ := by
  have hall := perform_eq (.empty id name submittedAt goal) steps
  rw [h] at hall
  exact hall

/-- The dependencies of a draft lie between its jobs. -/
theorem Drawn.edge_lt (h : draft.Drawn) :
    ∀ edge ∈ draft.edges, edge.1 < draft.jobs.length ∧ edge.2 < draft.jobs.length := by
  induction h with
  | empty => exact fun edge hedge => absurd hedge List.not_mem_nil
  | take draft next step added _ htake ih =>
      obtain ⟨hnext, hlength, hbounds⟩ := take_eq_ok htake
      have hedges : next.edges = draft.edges ++ step.edges := congrArg WorkflowDraft.edges hnext
      intro edge hedge
      rw [hedges, List.mem_append] at hedge
      have hlt := hedge.elim (ih edge) (hbounds edge)
      exact ⟨Nat.lt_of_lt_of_le hlt.1 hlength, Nat.lt_of_lt_of_le hlt.2 hlength⟩

/-- The parents of a job are those that the draft makes it depend on. -/
theorem Drawn.mem_parentsOf_iff (h : draft.Drawn) {job parent : JobId} :
    parent ∈ draft.parentsOf job ↔ (parent, job) ∈ draft.edges := by
  rw [mem_parentsOf, and_iff_right_of_imp]
  exact fun hedge => (h.edge_lt _ hedge).1

/-- The children of a job are those that the draft makes depend on it. -/
theorem Drawn.mem_childrenOf_iff (h : draft.Drawn) {job child : JobId} :
    child ∈ draft.childrenOf job ↔ (job, child) ∈ draft.edges := by
  rw [mem_childrenOf, and_iff_right_of_imp]
  exact fun hedge => (h.edge_lt _ hedge).2

end Steps

variable {draft : WorkflowDraft α}

/-- Drafts that differ only in how often and in which order their dependencies were added give the
same workflow or the same fault. -/
theorem build_congr {edges : List (JobId × JobId)} (h : ∀ edge, edge ∈ edges ↔ edge ∈ draft.edges) :
    { draft with edges }.build = draft.build := by
  have hparents : ∀ job, { draft with edges }.parentsOf job = draft.parentsOf job := by
    intro job
    refine List.filter_congr fun id _ => ?_
    rw [Bool.eq_iff_iff, List.contains_iff_mem, List.contains_iff_mem]
    simp [h]
  have hchildren : ∀ job, { draft with edges }.childrenOf job = draft.childrenOf job := by
    intro job
    refine List.filter_congr fun id _ => ?_
    rw [Bool.eq_iff_iff, List.contains_iff_mem, List.contains_iff_mem]
    simp [h]
  have htable : { draft with edges }.parentTable = draft.parentTable :=
    congrArg List.toArray (List.map_congr_left fun job _ => hparents job)
  have hfinish : ∀ layers entry id,
      { draft with edges }.finishJob layers entry id = draft.finishJob layers entry id := by
    intro layers entry id
    simp only [finishJob, writtenByParents, hparents, hchildren]
  simp only [build, htable, hfinish]
  rfl

end WorkflowDraft

end WattPlan
