import WattPlan.Metrics
import WattPlan.Proofs.Precedence
import WattPlan.Proofs.Traversals

/-!
# The metrics of an arranged workflow

A pass over an order in which every job comes after the jobs that its score looks at gives each job
a value (`Estimates.pass_eq_ok`). What the scores keep holds of all values that it gives
(`Estimates.pass_preserves`). The orders of the three passes are such orders in an arranged
workflow, so `Metrics.ofWorkflow_eq_ok` gives metrics, and `Metrics.Fits` says which tables they are
made of.
-/

namespace WattPlan

variable {α : Type} [Scalar α]

namespace Estimates

variable {workflow : Workflow α} {estimates : Estimates α} {values : List (Option α)}

omit [Scalar α] in
/-- A neighbour with a value gives it. -/
theorem valueOf_eq_ok (workflow : Workflow α) (metric : Metric) (job : JobId) {neighbour : JobId}
    (h : ∃ value, values[neighbour]? = some (some value)) :
    ∃ value, valueOf workflow metric values job neighbour = .ok value := by
  obtain ⟨value, hvalue⟩ := h
  exact ⟨value, by simp [valueOf, hvalue]⟩

omit [Scalar α] in
/-- A pass whose scores find the values they look at gives a value to every job. -/
theorem pass_eq_ok (h : workflow.Arranged) (metric : Metric)
    (score : List (Option α) → Job α → Except (PlanFault α) α)
    {needs : JobId → List JobId} {order : List JobId}
    (hperm : order.Perm workflow.jobIds) (hneeds : Respects needs order)
    (hscore : ∀ values, ∀ job ∈ workflow.jobs,
      (∀ need ∈ needs job.id, ∃ value, values[need]? = some (some value)) →
        ∃ value, score values job = .ok value) :
    ∃ values, pass workflow metric score order = .ok values ∧
      values.length = workflow.jobs.length := by
  have hmem : ∀ id, id ∈ order ↔ id < workflow.jobs.length := fun id =>
    hperm.mem_iff.trans h.mem_jobIds
  unfold pass
  refine exists_bind_eq_ok (foldlM_fill needs _ (fun id hid => (hmem id).1 hid) hneeds ?_) ?_
  · intro values id hid _ hready
    obtain ⟨job, hjob⟩ := Workflow.job?_isSome ((hmem id).1 hid)
    rw [← h.id_eq hjob] at hready
    obtain ⟨value, hvalue⟩ := hscore values job (Workflow.mem_of_job? hjob) hready
    exact ⟨value, by simp [hjob, hvalue, bind, Except.bind]⟩
  · rintro filled ⟨-, hfilled⟩
    have hread : ∀ id ∈ List.range workflow.jobs.length,
        ∃ value, valueOf workflow metric filled id id = .ok value := fun id hid =>
      valueOf_eq_ok workflow metric id (hfilled id ((hmem id).2 (List.mem_range.1 hid)))
    obtain ⟨result, hresult⟩ := exists_forall₂ hread
    exact ⟨result, mapM_eq_ok_iff.2 hresult, by simpa using hresult.length_eq.symm⟩

omit [Scalar α] in
/-- The value of a neighbour is the one at its place. -/
theorem getElem?_of_valueOf_eq_ok {metric : Metric} {job neighbour : JobId} {value : α}
    (h : valueOf workflow metric values job neighbour = .ok value) :
    values[neighbour]? = some (some value) := by
  unfold valueOf at h
  split at h
  · rename_i found hfound
    obtain rfl := Except.ok.inj h
    exact hfound
  · cases h

omit [Scalar α] in
/-- What the scores of a pass show of each job, if it holds of the jobs before it, holds of all jobs
and the values that it gives them. -/
theorem pass_preserves {P : JobId → α → Prop} {metric : Metric}
    {score : List (Option α) → Job α → Except (PlanFault α) α} {order : List JobId}
    {result : List α}
    (hscore : ∀ values id job, workflow.job? id = some job → ∀ value,
      (∀ other v, values[other]? = some (some v) → P other v) →
        score values job = .ok value → P id value)
    (h : pass workflow metric score order = .ok result) :
    List.Forall₂ P (List.range workflow.jobs.length) result := by
  obtain ⟨filled, hfold, hread⟩ := exists_of_bind_eq_ok h
  have hfilled : ∀ other v, filled[other]? = some (some v) → P other v := by
    refine foldlM_preserves (I := fun values => ∀ other v, values[other]? = some (some v) → P other v)
      (fun other v hv => ?_) (fun values id _ next hvalues hnext => ?_) hfold
    · cases (List.mem_replicate.1 (List.mem_of_getElem? hv)).2
    · split at hnext
      · rename_i job hjob
        obtain ⟨value, hvalue, hset⟩ := exists_of_bind_eq_ok hnext
        obtain rfl := Except.ok.inj hset
        intro other v hv
        rw [List.getElem?_set] at hv
        split at hv
        · rename_i hsame
          subst hsame
          split at hv
          · obtain rfl := Option.some.inj (Option.some.inj hv)
            exact hscore values id job hjob value hvalues hvalue
          · cases hv
        · exact hvalues other v hv
      · obtain rfl := Except.ok.inj hnext
        exact hvalues
  exact (mapM_eq_ok_iff.1 hread).imp fun id value hvalue =>
    hfilled id value (getElem?_of_valueOf_eq_ok hvalue)

omit [Scalar α] in
/-- An arrival at a job is from one of its parents. -/
theorem mem_parents_of_arrivals {job : Job α} {arrival : JobId × α}
    (h : arrival ∈ estimates.arrivals job) : arrival.1 ∈ job.parents :=
  (List.of_mem_zip h).1

/-- The earliest finish of a job is found when those of its parents are known. -/
theorem earliestFinish_eq_ok {job : Job α}
    (h : ∀ parent ∈ job.parents, ∃ value, values[parent]? = some (some value)) :
    ∃ value, estimates.earliestFinish workflow values job = .ok value := by
  have hstep : ∀ (start : α), ∀ arrival ∈ estimates.arrivals job, ∃ next, (do
      let finish ← valueOf workflow .earliestFinish values job.id arrival.1
      .ok (Scalar.max start (finish + arrival.2))) = Except.ok next := by
    intro start arrival harrival
    obtain ⟨finish, hfinish⟩ := valueOf_eq_ok workflow .earliestFinish job.id
      (h _ (mem_parents_of_arrivals harrival))
    exact ⟨_, bind_eq_ok hfinish rfl⟩
  obtain ⟨start, hstart⟩ := foldlM_total (estimates.arrivals job) 0 hstep
  exact ⟨_, bind_eq_ok hstart rfl⟩

/-- The upward rank of a job is found when those of its children are known. -/
theorem upwardRank_eq_ok {job : Job α}
    (h : ∀ child ∈ job.children, ∃ value, values[child]? = some (some value)) :
    ∃ value, estimates.upwardRank workflow values job = .ok value := by
  have hstep : ∀ (tail : α), ∀ child ∈ job.children, ∃ next, (do
      let rank ← valueOf workflow .upwardRank values job.id child
      let transfer := ((workflow.job? child).map fun reader =>
        estimates.transferFrom reader job.id).getD 0
      .ok (Scalar.max tail (rank + transfer))) = Except.ok next := by
    intro tail child hchild
    obtain ⟨rank, hrank⟩ := valueOf_eq_ok workflow .upwardRank job.id (h child hchild)
    exact ⟨_, bind_eq_ok hrank rfl⟩
  obtain ⟨tail, htail⟩ := foldlM_total job.children 0 hstep
  exact ⟨_, bind_eq_ok htail rfl⟩

/-- The downward rank of a job is found when those of its parents are known. -/
theorem downwardRank_eq_ok {job : Job α}
    (h : ∀ parent ∈ job.parents, ∃ value, values[parent]? = some (some value)) :
    ∃ value, estimates.downwardRank workflow values job = .ok value := by
  apply foldlM_total
  intro head arrival harrival
  obtain ⟨rank, hrank⟩ := valueOf_eq_ok workflow .downwardRank job.id
    (h _ (mem_parents_of_arrivals harrival))
  exact ⟨_, bind_eq_ok hrank rfl⟩

end Estimates

namespace Metrics

variable {workflow : Workflow α} {catalog : Catalog α} {metrics : Metrics α}

/-- The tables of metrics belong to a workflow on a catalog: the estimates are those of the
workflow, and each pass has given a value to every job. -/
structure Fits (metrics : Metrics α) (workflow : Workflow α) (catalog : Catalog α) : Prop where
  estimates : ∃ averaging speed,
    metrics.toEstimates = Estimates.ofWorkflow workflow catalog averaging speed
  earliestFinishes : metrics.earliestFinishes.length = workflow.jobs.length
  upwardRanks : metrics.upwardRanks.length = workflow.jobs.length
  downwardRanks : metrics.downwardRanks.length = workflow.jobs.length

/-- The three passes over an arranged workflow succeed, and the metrics fit it. -/
theorem ofWorkflow_eq_ok (h : workflow.Arranged) (catalog : Catalog α)
    (averaging : TransferAveraging) (speed : SpeedReference) :
    ∃ metrics, ofWorkflow workflow catalog averaging speed = .ok metrics ∧
      metrics.Fits workflow catalog := by
  have hup := workflow.depthOrder_perm
  have hdown := (List.reverse_perm workflow.depthOrder).trans hup
  obtain ⟨finishes, hfinishes, hfinishlen⟩ := Estimates.pass_eq_ok h .earliestFinish
    ((Estimates.ofWorkflow workflow catalog averaging speed).earliestFinish workflow) hup
    h.depthOrder_respects_parents fun values job hjob hready =>
      Estimates.earliestFinish_eq_ok (by rwa [h.parentsOf_id hjob] at hready)
  obtain ⟨upwards, hupwards, huplen⟩ := Estimates.pass_eq_ok h .upwardRank
    ((Estimates.ofWorkflow workflow catalog averaging speed).upwardRank workflow) hdown
    h.reverse_depthOrder_respects_children fun values job hjob hready =>
      Estimates.upwardRank_eq_ok (by rwa [h.childrenOf_id hjob] at hready)
  obtain ⟨downwards, hdownwards, hdownlen⟩ := Estimates.pass_eq_ok h .downwardRank
    ((Estimates.ofWorkflow workflow catalog averaging speed).downwardRank workflow) hup
    h.depthOrder_respects_parents fun values job hjob hready =>
      Estimates.downwardRank_eq_ok (by rwa [h.parentsOf_id hjob] at hready)
  refine ⟨⟨Estimates.ofWorkflow workflow catalog averaging speed, finishes, upwards, downwards⟩, ?_,
    ⟨averaging, speed, rfl⟩, hfinishlen, huplen, hdownlen⟩
  exact bind_eq_ok hfinishes (bind_eq_ok hupwards (bind_eq_ok hdownwards rfl))

/-- Metrics that the three passes give fit the workflow. -/
theorem fits_of_ofWorkflow (h : workflow.Arranged) {averaging : TransferAveraging}
    {speed : SpeedReference}
    (hmetrics : ofWorkflow workflow catalog averaging speed = .ok metrics) :
    metrics.Fits workflow catalog := by
  obtain ⟨other, hother, hfits⟩ := ofWorkflow_eq_ok h catalog averaging speed
  obtain rfl := Except.ok.inj (hmetrics.symm.trans hother)
  exact hfits

/-- Metrics are made up of the estimates and of what the three passes give. -/
theorem passes_of_ofWorkflow {averaging : TransferAveraging} {speed : SpeedReference}
    (hmetrics : ofWorkflow workflow catalog averaging speed = .ok metrics) :
    metrics.toEstimates = Estimates.ofWorkflow workflow catalog averaging speed ∧
      Estimates.pass workflow .earliestFinish (metrics.toEstimates.earliestFinish workflow)
        workflow.depthOrder = .ok metrics.earliestFinishes ∧
      Estimates.pass workflow .upwardRank (metrics.toEstimates.upwardRank workflow)
        workflow.depthOrder.reverse = .ok metrics.upwardRanks ∧
      Estimates.pass workflow .downwardRank (metrics.toEstimates.downwardRank workflow)
        workflow.depthOrder = .ok metrics.downwardRanks := by
  obtain ⟨finishes, hfinishes, hrest⟩ := exists_of_bind_eq_ok hmetrics
  obtain ⟨upwards, hupwards, hrest⟩ := exists_of_bind_eq_ok hrest
  obtain ⟨downwards, hdownwards, hlast⟩ := exists_of_bind_eq_ok hrest
  obtain rfl := Except.ok.inj hlast
  exact ⟨rfl, hfinishes, hupwards, hdownwards⟩

namespace Fits

/-- The table of staging times has a row for each job and in it the time on each node. -/
theorem staging (h : metrics.Fits workflow catalog) :
    metrics.staging = workflow.jobs.map fun job => catalog.nodes.map (catalog.stagingTime job) := by
  obtain ⟨averaging, speed, hestimates⟩ := h.estimates
  exact congrArg Estimates.staging hestimates

/-- The table of mean staging times has a value for each job. -/
theorem meanStaging_length (h : metrics.Fits workflow catalog) :
    metrics.meanStaging.length = workflow.jobs.length := by
  obtain ⟨averaging, speed, hestimates⟩ := h.estimates
  rw [congrArg Estimates.meanStaging hestimates]
  simp [Estimates.ofWorkflow]

/-- The table of transfer times has a row for each job and in it a time for each of its parents. -/
theorem transfers_length (h : metrics.Fits workflow catalog) :
    metrics.transfers.map List.length = workflow.jobs.map fun job => job.parents.length := by
  obtain ⟨averaging, speed, hestimates⟩ := h.estimates
  rw [congrArg Estimates.transfers hestimates]
  simp [Estimates.ofWorkflow]

/-- The staging time that is looked up for a job on a node is the one on the catalog. -/
theorem stagingTime_eq (h : metrics.Fits workflow catalog) {job : Job α} {node : Node α}
    (hjob : workflow.job? job.id = some job) (hnode : catalog.node? node.id = some node) :
    metrics.stagingTime job.id node.id = catalog.stagingTime job node := by
  rw [Workflow.job?] at hjob
  rw [Catalog.node?] at hnode
  simp [Metrics.stagingTime, h.staging, List.getD_eq_getElem?_getD, hjob, hnode]

end Fits

end Metrics

end WattPlan
