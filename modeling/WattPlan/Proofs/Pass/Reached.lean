import WattPlan.Proofs.Catalog.Draft
import WattPlan.Proofs.Placement.Offers
import WattPlan.Proofs.Precedence
import WattPlan.Proofs.Timelines
import WattPlan.Proofs.Traversals

/-!
# The passes that placing due jobs leads to

`Pass.Reached` holds of the passes that one can come to by placing, one after another, a due job at
an offered candidate. A pass that is reached keeps the windows it started from and has one more for
each placement (`Reached.windows_perm`), places each job once and after its parents
(`Reached.nodup`, `Reached.respects`), and accounts for every placement (`Reached.accounts`): it is
an offered candidate that stands in the timeline of its node as it was evaluated.
-/

namespace WattPlan

variable {α : Type} [Scalar α]

/-- The window of a placement for a job of a workflow. -/
def Placement.window {α : Type} (placement : Placement α) (workflow : WorkflowId) : Window α :=
  ⟨placement.start, placement.finish, ⟨workflow, placement.job⟩⟩

namespace Pass

variable {pass : Pass α} {problem : Problem α} {timelines : Timelines α} {job : Job α}
  {request : Request α} {candidate : Candidate α} {placement : Placement α}

/-- The pass with one more placement. -/
def extend (pass : Pass α) (workflow : WorkflowId) (placement : Placement α) : Pass α :=
  ⟨pass.timelines.insert placement.node.id (placement.window workflow), pass.placed ++ [placement]⟩

omit [Scalar α] in
/-- A job is placed just when it is in the order of the placements. -/
theorem isPlaced_iff {id : JobId} : pass.isPlaced id = true ↔ id ∈ pass.commitOrder := by
  simp [isPlaced, placement?, commitOrder, List.find?_isSome]

omit [Scalar α] in
/-- The placement of a job is one of the placements, and of that job. -/
theorem placement?_eq_some {id : JobId} (h : pass.placement? id = some placement) :
    placement ∈ pass.placed ∧ placement.job = id := by
  refine ⟨List.mem_of_find?_eq_some h, ?_⟩
  simpa using List.find?_some h

/-- A placement of a job stays the one of that job. -/
theorem placement?_extend {workflow : WorkflowId} {id : JobId} {other : Placement α}
    (h : pass.placement? id = some other) :
    (pass.extend workflow placement).placement? id = some other := by
  rw [placement?] at h ⊢
  simp [extend, List.find?_append, h]

/-- The arrival from a parent stays what it is. -/
theorem arrivalFrom_extend {workflow : WorkflowId} {parent : JobId} {arrival : Arrival α}
    (h : pass.arrivalFrom problem.workflow job parent = .ok arrival) :
    (pass.extend workflow placement).arrivalFrom problem.workflow job parent = .ok arrival := by
  unfold arrivalFrom at h ⊢
  split at h
  · rename_i other writer hplacement hwriter
    rw [placement?_extend hplacement, hwriter]
    exact h
  · cases h

/-- The time from which the staging of a job is counted: the submission, or the first finish of a
parent. -/
def beginOf (problem : Problem α) (arrivals : List (Arrival α)) : α :=
  if arrivals.isEmpty then problem.workflow.submittedAt
  else Scalar.minFrom Scalar.infinity (arrivals.map Arrival.finish)

/-- What a request for a job is made of. -/
structure Asks (pass : Pass α) (problem : Problem α) (job : Job α) (request : Request α) :
    Prop where
  problem_eq : request.problem = problem
  job_eq : request.job = job
  arrivals_from : List.Forall₂
    (fun parent arrival => pass.arrivalFrom problem.workflow job parent = .ok arrival)
    job.parents request.arrivals
  begin_eq : request.begin = beginOf problem request.arrivals

/-- A request that a pass makes asks for its job, at the timelines of the pass. -/
theorem asks_of_request (h : pass.request problem job = .ok request) :
    pass.Asks problem job request ∧ request.timelines = pass.timelines := by
  unfold Pass.request at h
  cases harrivals : job.parents.mapM (pass.arrivalFrom problem.workflow job) with
  | error fault =>
      rw [harrivals] at h
      cases h
  | ok arrivals =>
      rw [harrivals] at h
      cases h
      exact ⟨⟨rfl, rfl, mapM_eq_ok_iff.1 harrivals, rfl⟩, rfl⟩

/-- An offered candidate is a level of a node, evaluated at the time when all inputs are there. -/
theorem Asks.exists_evaluate (h : pass.Asks problem job request)
    (hoffers : request.Offers candidate) :
    ∃ node ∈ problem.catalog.nodes, ∃ level ∈ node.levels, ∃ place,
      candidate = request.evaluate node (request.readyTime node) (level, place) := by
  obtain ⟨node, hnode, ⟨level, place⟩, hchoice, hcandidate⟩ := hoffers
  rw [h.problem_eq] at hnode
  exact ⟨node, hnode, level, List.mem_of_getElem? (List.mk_mem_zipIdx_iff_getElem?.1 hchoice),
    place, hcandidate⟩

/-- A further placement leaves what a request for an earlier job is made of. -/
theorem Asks.extend {workflow : WorkflowId} (h : pass.Asks problem job request) :
    (pass.extend workflow placement).Asks problem job request :=
  ⟨h.problem_eq, h.job_eq, h.arrivals_from.imp fun _ _ => arrivalFrom_extend, h.begin_eq⟩

/-- An offered candidate is committed as it was evaluated: the probed start is the committed one. -/
theorem commit_eq_extend (hrequest : pass.request problem job = .ok request)
    (hoffers : request.Offers candidate) :
    pass.commit problem job candidate =
      pass.extend problem.workflow.id ⟨candidate, job.id⟩ := by
  obtain ⟨⟨-, hjob, -, -⟩, htimelines⟩ := asks_of_request hrequest
  obtain ⟨node, -, choice, hchoice, rfl⟩ := hoffers
  have hlevel : node.levels.getD choice.2 node.fastest = choice.1 := by
    rw [List.getD_eq_getElem?_getD, List.mem_zipIdx_iff_getElem?.1 hchoice]
    rfl
  have hduration : (node.levels.getD choice.2 node.fastest).execTime job.length =
      choice.1.execTime request.job.length := by
    rw [hlevel, hjob]
  unfold commit
  dsimp only [Request.evaluate]
  rw [hduration, ← htimelines, Timelines.commit_eq, htimelines]
  rfl

/-- The passes that one comes to from given timelines by placing due jobs at offered candidates. -/
inductive Reached (problem : Problem α) (timelines : Timelines α) : Pass α → Prop where
  | start : Reached problem timelines (start timelines)
  | place (pass : Pass α) (job : Job α) (request : Request α) (candidate : Candidate α) :
      Reached problem timelines pass → job ∈ problem.workflow.jobs → pass.isDue job = true →
      pass.request problem job = .ok request → request.Offers candidate →
      Reached problem timelines (pass.commit problem job candidate)

/-- A pass accounts for a placement: its window is in the timeline of its node, and it is a
candidate that the request for its job offers, at the arrivals that the pass has for it. -/
structure Accounts (pass : Pass α) (problem : Problem α) (placement : Placement α) : Prop where
  window : placement.window problem.workflow.id ∈
    (pass.timelines.ofNode placement.node.id).windows
  origin : ∃ job request, problem.workflow.job? placement.job = some job ∧
    pass.Asks problem job request ∧ request.Offers placement.toCandidate

/-- A further placement leaves the earlier ones accounted for. -/
theorem Accounts.extend {workflow : WorkflowId} {other : Placement α}
    (h : pass.Accounts problem placement) :
    (pass.extend workflow other).Accounts problem placement := by
  refine ⟨(Timelines.sublist_ofNode_insert _).subset h.window, ?_⟩
  obtain ⟨job, request, hjob, hasks, hoffers⟩ := h.origin
  exact ⟨job, request, hjob, hasks.extend, hoffers⟩

namespace Reached

/-- What holds of the first pass and is kept when a due job is placed holds of every pass that is
reached. -/
theorem preserves {P : Pass α → Prop} (h : Reached problem timelines pass)
    (hstart : P (Pass.start timelines))
    (hstep : ∀ {pass : Pass α} {job request candidate}, Reached problem timelines pass → P pass →
      job ∈ problem.workflow.jobs → pass.isDue job = true →
      pass.request problem job = .ok request → request.Offers candidate →
        P (pass.extend problem.workflow.id ⟨candidate, job.id⟩)) : P pass := by
  induction h with
  | start => exact hstart
  | place pass job request candidate hreached hjob hdue hrequest hoffers ih =>
      rw [commit_eq_extend hrequest hoffers]
      exact hstep hreached ih hjob hdue hrequest hoffers

/-- A pass has a timeline for each node that it started with. -/
theorem length_timelines (h : Reached problem timelines pass) :
    pass.timelines.nodes.length = timelines.nodes.length :=
  h.preserves (P := fun pass => pass.timelines.nodes.length = timelines.nodes.length) rfl
    fun _ ih _ _ _ _ => Timelines.length_insert.trans ih

/-- The windows that a pass started from stay on their nodes and in their order. -/
theorem sublist_ofNode (h : Reached problem timelines pass) (node : NodeId) :
    (timelines.ofNode node).windows.Sublist (pass.timelines.ofNode node).windows :=
  h.preserves (P := fun pass =>
    (timelines.ofNode node).windows.Sublist (pass.timelines.ofNode node).windows)
    (List.Sublist.refl _) fun _ ih _ _ _ _ => ih.trans (Timelines.sublist_ofNode_insert node)

/-- The placed jobs are jobs of the workflow. -/
theorem mem_jobIds (h : Reached problem timelines pass) :
    ∀ id ∈ pass.commitOrder, id ∈ problem.workflow.jobIds := by
  refine h.preserves (P := fun pass => ∀ id ∈ pass.commitOrder, id ∈ problem.workflow.jobIds)
    (by simp [Pass.start, commitOrder]) ?_
  intro pass job request candidate _ ih hjob _ _ _ id hid
  simp only [commitOrder, Pass.extend, List.map_append, List.map_cons, List.map_nil,
    List.mem_append, List.mem_singleton] at hid
  rcases hid with hid | rfl
  · exact ih id hid
  · exact List.mem_map_of_mem hjob

/-- Every placement is on a node of the catalog. -/
theorem mem_nodes (h : Reached problem timelines pass) :
    ∀ placement ∈ pass.placed, placement.node ∈ problem.catalog.nodes := by
  refine h.preserves (P := fun pass =>
    ∀ placement ∈ pass.placed, placement.node ∈ problem.catalog.nodes) (by simp [Pass.start]) ?_
  intro pass job request candidate _ ih _ _ hrequest hoffers placement hplacement
  rcases List.mem_append.1 hplacement with hplacement | hplacement
  · exact ih placement hplacement
  · obtain ⟨hasks, -⟩ := asks_of_request hrequest
    obtain ⟨node, hnode, level, -, place, rfl⟩ := hasks.exists_evaluate hoffers
    rw [List.mem_singleton.1 hplacement]
    exact hnode

/-- No job is placed twice. -/
theorem nodup (h : Reached problem timelines pass) : pass.commitOrder.Nodup := by
  refine h.preserves (P := fun pass => pass.commitOrder.Nodup) List.nodup_nil ?_
  intro pass job request candidate _ ih _ hdue _ _
  simp only [isDue, Bool.and_eq_true, Bool.not_eq_true'] at hdue
  have hnew : job.id ∉ pass.commitOrder := by
    rw [← isPlaced_iff, hdue.1]
    simp
  show (pass.placed ++ [_]).map _ |>.Nodup
  rw [List.map_append]
  refine List.nodup_append.2 ⟨ih, by simp, fun id hid other hother => ?_⟩
  rw [List.mem_singleton.1 hother]
  rintro rfl
  exact hnew hid

/-- Every job is placed after its parents. -/
theorem respects (h : Reached problem timelines pass) (harranged : problem.workflow.Arranged) :
    Respects problem.workflow.parentsOf pass.commitOrder := by
  refine h.preserves (P := fun pass => Respects problem.workflow.parentsOf pass.commitOrder)
    Respects.nil ?_
  intro pass job request candidate _ ih hjob hdue _ _
  simp only [isDue, Bool.and_eq_true, List.all_eq_true] at hdue
  show Respects _ ((pass.placed ++ [_]).map _)
  rw [List.map_append]
  refine ih.snoc fun parent hparent => ?_
  rw [harranged.parentsOf_id hjob] at hparent
  exact isPlaced_iff.1 (hdue.2 parent hparent)

/-- The node of an offered candidate has a timeline, if every node of the catalog has one. -/
theorem node_lt (h : Reached problem timelines pass) (hcatalog : problem.catalog.Drafted)
    (hlength : timelines.nodes.length = problem.catalog.nodes.length)
    (hrequest : pass.request problem job = .ok request) (hoffers : request.Offers candidate) :
    candidate.node.id < pass.timelines.nodes.length := by
  obtain ⟨⟨hproblem, -, -, -⟩, -⟩ := asks_of_request hrequest
  obtain ⟨node, hnode, choice, -, rfl⟩ := hoffers
  rw [hproblem] at hnode
  rw [h.length_timelines, hlength]
  exact hcatalog.id_lt hnode

/-- The windows of a pass are those it started from and one for each placement. -/
theorem windows_perm (h : Reached problem timelines pass) (hcatalog : problem.catalog.Drafted)
    (hlength : timelines.nodes.length = problem.catalog.nodes.length) :
    pass.timelines.windows.Perm
      (timelines.windows ++ pass.placed.map fun placement =>
        placement.window problem.workflow.id) := by
  refine h.preserves (P := fun pass => pass.timelines.windows.Perm
    (timelines.windows ++ pass.placed.map fun placement =>
      placement.window problem.workflow.id)) (by simp [Pass.start]) ?_
  intro pass job request candidate hreached ih _ _ hrequest hoffers
  refine (Timelines.windows_insert_perm
    (hreached.node_lt hcatalog hlength hrequest hoffers)).trans ?_
  simp only [Pass.extend, List.map_append, List.map_cons, List.map_nil]
  rw [← List.append_assoc]
  exact (List.Perm.cons _ ih).trans (List.perm_append_singleton _ _).symm

/-- Every placement is accounted for. -/
theorem accounts (h : Reached problem timelines pass) (hcatalog : problem.catalog.Drafted)
    (harranged : problem.workflow.Arranged)
    (hlength : timelines.nodes.length = problem.catalog.nodes.length) :
    ∀ placement ∈ pass.placed, pass.Accounts problem placement := by
  refine h.preserves (P := fun pass => ∀ placement ∈ pass.placed, pass.Accounts problem placement)
    (by simp [Pass.start]) ?_
  intro pass job request candidate hreached ih hjob _ hrequest hoffers placement hplacement
  rcases List.mem_append.1 hplacement with hplacement | hplacement
  · exact (ih placement hplacement).extend
  · obtain rfl := List.mem_singleton.1 hplacement
    refine ⟨?_, job, request, harranged.job?_id hjob, (asks_of_request hrequest).1.extend, hoffers⟩
    show _ ∈ ((pass.timelines.insert _ _).ofNode _).windows
    rw [Timelines.ofNode_insert_self (hreached.node_lt hcatalog hlength hrequest hoffers),
      Timeline.mem_insert]
    exact .inl rfl

end Reached

end Pass

end WattPlan
