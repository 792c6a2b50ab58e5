import WattPlan.Proofs.Exact
import WattPlan.Proofs.Workflow.Cycles
import WattPlan.Proofs.Workflow.Layers

/-!
# The analysis of dependencies

A workflow that is built from a draft says everything about the dependencies that the draft was
given: who comes right before and right after each job, how far down each job is, and an order and a
grouping by that depth (`Workflow.Analyses`). A draft is built just when its dependencies have no
cycle, and the workflow depends on nothing but which dependencies there are
(`WorkflowDraft.build_analyses`).
-/

namespace WattPlan

variable {α : Type}

/-- What a workflow says of dependencies among jobs that are numbered below a count: each job lists
its parents and its children by number, its depth is the length of the longest path that leads to
it, the order by depth has every job behind its parents, and the groups by depth leave out no
depth. -/
structure Workflow.Analyses (workflow : Workflow α) (count : Nat) (edges : List (JobId × JobId)) :
    Prop where
  jobIds : workflow.jobIds = List.range count
  edge_lt : ∀ edge ∈ edges, edge.1 < count ∧ edge.2 < count
  parents : ∀ job ∈ workflow.jobs, job.parents.Pairwise (· < ·) ∧
    ∀ id, id ∈ job.parents ↔ (id, job.id) ∈ edges
  children : ∀ job ∈ workflow.jobs, job.children.Pairwise (· < ·) ∧
    ∀ id, id ∈ job.children ↔ (job.id, id) ∈ edges
  mirrored : ∀ upper ∈ workflow.jobs, ∀ lower ∈ workflow.jobs,
    lower.id ∈ upper.children ↔ upper.id ∈ lower.parents
  depth : ∀ job ∈ workflow.jobs,
    IsGreatest (pathLengths (Leads edges) job.id) job.depth
  order : workflow.depthOrder.Perm (List.range count)
  order_lt : ∀ edge ∈ edges,
    workflow.depthOrder.idxOf edge.1 < workflow.depthOrder.idxOf edge.2
  groups : workflow.depthGroups.flatten.Perm (List.range count)
  group : ∀ depth group, workflow.depthGroups[depth]? = some group →
    ∀ id, id ∈ group ↔ ∃ job ∈ workflow.jobs, job.id = id ∧ job.depth = depth
  group_ne_nil : 0 < count → ∀ group ∈ workflow.depthGroups, group ≠ []

/-- A group by depth holds the jobs of that depth. -/
theorem Workflow.mem_depthGroup {workflow : Workflow α} {depth : Nat} {group : List JobId}
    (h : workflow.depthGroups[depth]? = some group) (id : JobId) :
    id ∈ group ↔ ∃ job ∈ workflow.jobs, job.id = id ∧ job.depth = depth := by
  rw [depthGroups, List.getElem?_map] at h
  obtain ⟨place, hplace, rfl⟩ := Option.map_eq_some_iff.1 h
  obtain ⟨hlt, rfl⟩ := List.getElem?_eq_some_iff.1 hplace
  simp only [List.getElem_range, List.mem_map, List.mem_filter, decide_eq_true_eq]
  constructor
  · rintro ⟨job, ⟨hjob, hdepth⟩, hid⟩
    exact ⟨job, hjob, hid, hdepth⟩
  · rintro ⟨job, hjob, hid, hdepth⟩
    exact ⟨job, ⟨hjob, hdepth⟩, hid⟩

/-- The jobs of a group by depth are of that depth. -/
theorem Workflow.Arranged.depthOf_of_mem_depthGroup {workflow : Workflow α}
    (h : workflow.Arranged) {depth : Nat} {group : List JobId}
    (hgroup : workflow.depthGroups[depth]? = some group) {id : JobId} (hid : id ∈ group) :
    workflow.depthOf id = depth := by
  obtain ⟨job, hjob, rfl, hdepth⟩ := (mem_depthGroup hgroup id).1 hid
  rw [h.depthOf_id hjob, hdepth]

/-- The groups by depth are those of the depths up to the largest one. -/
theorem Workflow.length_depthGroups (workflow : Workflow α) :
    workflow.depthGroups.length = workflow.maxDepth + 1 := by
  simp [depthGroups]

namespace WorkflowDraft

variable {draft : WorkflowDraft α} {workflow : Workflow α}

/-- The parents of a job come in growing order. -/
theorem parentsOf_pairwise (draft : WorkflowDraft α) (job : JobId) :
    (draft.parentsOf job).Pairwise (· < ·) :=
  List.pairwise_lt_range.filter _

/-- The children of a job come in growing order. -/
theorem childrenOf_pairwise (draft : WorkflowDraft α) (job : JobId) :
    (draft.childrenOf job).Pairwise (· < ·) :=
  List.pairwise_lt_range.filter _

/-- Where there is a job, the depths of the jobs leave out none up to the largest one. -/
theorem depthGroup_ne_nil (h : draft.build = .ok workflow) (hpos : 0 < draft.jobs.length)
    {group : List JobId} (hgroup : group ∈ workflow.depthGroups) : group ≠ [] := by
  have harranged := arranged_of_build h
  obtain ⟨-, -, hlength, -⟩ := build_eq_ok h
  have hjobs : draft.jobIds = workflow.jobIds := by rw [harranged.jobIds_eq, hlength, jobIds]
  obtain ⟨depth, hdepth, hget⟩ := List.mem_iff_getElem.1 hgroup
  rw [Workflow.length_depthGroups] at hdepth
  have hne : workflow.jobs ≠ [] := List.ne_nil_of_length_pos (hlength ▸ hpos)
  obtain ⟨deepest, hdeepest, heq⟩ := Workflow.exists_depth_eq_maxDepth hne
  have hmem : deepest.id ∈ draft.jobIds := hjobs ▸ List.mem_map_of_mem hdeepest
  have hle : depth ≤ workflow.depthOf deepest.id := by
    rw [harranged.depthOf_id hdeepest, heq]
    omega
  obtain ⟨id, hid, hrank⟩ := (ranked_of_build h).exists_rank_eq hmem hle
  obtain ⟨job, hjob, rfl⟩ := List.mem_map.1 (hjobs ▸ hid)
  rw [harranged.depthOf_id hjob] at hrank
  have hin := (Workflow.mem_depthGroup (List.getElem?_eq_some_iff.2 ⟨_, hget⟩) job.id).2
    ⟨job, hjob, rfl, hrank⟩
  exact List.ne_nil_of_mem hin

section Steps

variable [Scalar α]

/-- The workflow of a drawn draft analyses the dependencies of the draft. -/
theorem Drawn.analyses (hdrawn : draft.Drawn) (h : draft.build = .ok workflow) :
    workflow.Analyses draft.jobs.length draft.edges := by
  have harranged := arranged_of_build h
  obtain ⟨layers, -, hlength, hfinish⟩ := build_eq_ok h
  have hids : workflow.jobIds = List.range draft.jobs.length := by
    rw [harranged.jobIds_eq, hlength]
  have hfinished : ∀ job ∈ workflow.jobs,
      job.parents = draft.parentsOf job.id ∧ job.children = draft.childrenOf job.id := by
    intro job hjob
    obtain ⟨entry, -, heq⟩ := (hfinish job.id job).1 (harranged.job?_id hjob)
    exact ⟨(congrArg Job.parents heq).symm, (congrArg Job.children heq).symm⟩
  have hparents : ∀ job ∈ workflow.jobs, ∀ id, id ∈ job.parents ↔ (id, job.id) ∈ draft.edges := by
    intro job hjob id
    rw [(hfinished job hjob).1, hdrawn.mem_parentsOf_iff]
  have hchildren : ∀ job ∈ workflow.jobs, ∀ id, id ∈ job.children ↔ (job.id, id) ∈ draft.edges := by
    intro job hjob id
    rw [(hfinished job hjob).2, hdrawn.mem_childrenOf_iff]
  constructor
  case jobIds => exact hids
  case edge_lt => exact hdrawn.edge_lt
  case parents =>
    intro job hjob
    refine ⟨?_, hparents job hjob⟩
    rw [(hfinished job hjob).1]
    exact draft.parentsOf_pairwise job.id
  case children =>
    intro job hjob
    refine ⟨?_, hchildren job hjob⟩
    rw [(hfinished job hjob).2]
    exact draft.childrenOf_pairwise job.id
  case mirrored =>
    intro upper hupper lower hlower
    rw [hchildren upper hupper, hparents lower hlower]
  case depth =>
    intro job hjob
    have hmem : job.id ∈ draft.jobIds := by
      rw [jobIds, ← hids]
      exact List.mem_map_of_mem hjob
    have hgreatest := (ranked_of_build h).isGreatest_pathLengths hmem
    rw [harranged.depthOf_id hjob] at hgreatest
    simp only [hdrawn.mem_parentsOf_iff] at hgreatest
    exact hgreatest
  case order => exact hids ▸ workflow.depthOrder_perm
  case order_lt =>
    rintro ⟨parent, child⟩ hedge
    have hchild : child ∈ workflow.jobIds := by
      rw [hids, List.mem_range]
      exact (hdrawn.edge_lt _ hedge).2
    apply harranged.depthOrder_respects_parents.idxOf_lt (workflow.depthOrder_perm.mem_iff.2 hchild)
    obtain ⟨job, hjob, rfl⟩ := List.mem_map.1 hchild
    rw [harranged.parentsOf_id hjob, hparents job hjob]
    exact hedge
  case groups => exact hids ▸ workflow.depthOrder_perm
  case group => exact fun depth group hgroup => Workflow.mem_depthGroup hgroup
  case group_ne_nil => exact fun hpos group hgroup => depthGroup_ne_nil h hpos hgroup

/-- What building a draft gives that steps draw up, some of which may be refused: a workflow if the
accepted dependencies have no cycle, and that workflow analyses them. Steps that draw up the same
jobs and the same dependencies, however often and in whichever order, build the same. -/
theorem build_analyses (id : WorkflowId) (name : String) (submittedAt : α) (goal : Option α)
    {steps : List (Step α)} {outcomes : List (Except (ModelFault α) (Option JobId))}
    (h : (WorkflowDraft.empty id name submittedAt goal).perform steps = (draft, outcomes)) :
    ((∃ workflow, draft.build = .ok workflow) ↔
      ∀ job, ¬ Relation.TransGen (Leads (acceptedEdges steps outcomes)) job job) ∧
    (∀ workflow, draft.build = .ok workflow →
      workflow.Analyses draft.jobs.length (acceptedEdges steps outcomes)) ∧
    ∀ others other results,
      (WorkflowDraft.empty id name submittedAt goal).perform others = (other, results) →
      other.jobs = draft.jobs →
      (∀ edge, edge ∈ acceptedEdges others results ↔ edge ∈ acceptedEdges steps outcomes) →
      other.build = draft.build := by
  have hdrawn := Drawn.of_perform h
  have hdraft := eq_of_perform h
  have hedges : draft.edges = acceptedEdges steps outcomes := congrArg WorkflowDraft.edges hdraft
  refine ⟨?_, ?_, ?_⟩
  · rw [build_iff_acyclic, hdrawn.dependsOn_eq, hedges]
  · intro workflow hbuild
    rw [← hedges]
    exact hdrawn.analyses hbuild
  · intro others other results hothers hjobs hsame
    have hother : other = { draft with edges := acceptedEdges others results } := by
      rw [eq_of_perform hothers, hjobs, hdraft]
    rw [hother]
    exact build_congr fun edge => by rw [hsame, hedges]

end Steps

end WorkflowDraft

/-!
## A diamond

Four jobs, the first of which comes last: it depends on two others, which depend on the fourth one,
as it does itself. One dependency is added twice, and one is refused because a job is missing.
-/

namespace Diamond

open Exact Exact.WithoutExponentials WorkflowDraft

def jobs : List (Step (Exact ℚ)) :=
  [.job "join" (finite 1), .job "left" (finite 2), .job "right" (finite 3), .job "split" (finite 0)]

def steps : List (Step (Exact ℚ)) :=
  jobs ++ [.dependency 3 2, .dependency 1 0, .dependency 3 1, .dependency 4 0, .dependency 3 2,
    .dependency 2 0, .dependency 3 0]

/-- The same diamond with each dependency once and by number. -/
def orderly : List (Step (Exact ℚ)) :=
  jobs ++ [.dependency 1 0, .dependency 2 0, .dependency 3 0, .dependency 3 1, .dependency 3 2]

def empty : WorkflowDraft (Exact ℚ) :=
  .empty 2 "diamond" (finite 0) none

/-- The dependencies that are accepted, in their order. -/
def edges : List (JobId × JobId) :=
  [(3, 2), (1, 0), (3, 1), (3, 2), (2, 0), (3, 0)]

/-- The first job is built at depth 2, below the others, from either list of steps. -/
theorem build_diamond : acceptedEdges steps (empty.perform steps).2 = edges ∧
    (∀ job, ¬ Relation.TransGen (Leads edges) job job) ∧
    ∃ workflow, (empty.perform steps).1.build = .ok workflow ∧
      (empty.perform orderly).1.build = .ok workflow ∧ workflow.Analyses 4 edges ∧
      workflow.depthOf 0 = 2 ∧ workflow.parentsOf 0 = [1, 2, 3] ∧
      workflow.depthOrder = [3, 1, 2, 0] := by
  have hedges : acceptedEdges steps (empty.perform steps).2 = edges := by decide +kernel
  have hacyclic : ∀ job,
      ¬ Relation.TransGen (Leads edges) job job :=
    not_transGen_self (fun id => [2, 1, 1, 0].getD id 0) fun parent child hedge => by
      have hall : ∀ edge ∈ edges, [2, 1, 1, 0].getD edge.1 0 < [2, 1, 1, 0].getD edge.2 0 := by
        decide
      exact hall (parent, child) hedge
  obtain ⟨hiff, hanalyses, hsame⟩ := build_analyses 2 "diamond" (finite 0) none
    (show empty.perform steps = ((empty.perform steps).1, (empty.perform steps).2) from rfl)
  rw [hedges] at hiff hanalyses hsame
  obtain ⟨workflow, hbuild⟩ := hiff.2 hacyclic
  have haccepted : acceptedEdges orderly (empty.perform orderly).2 =
      [(1, 0), (2, 0), (3, 0), (3, 1), (3, 2)] := by
    decide +kernel
  have horderly : (empty.perform orderly).1.build = (empty.perform steps).1.build := by
    refine hsame orderly (empty.perform orderly).1 (empty.perform orderly).2 rfl
      (by decide +kernel) fun edge => ?_
    rw [haccepted]
    simp only [edges, List.mem_cons, List.not_mem_nil, or_false]
    tauto
  have hvalues : ((empty.perform steps).1.build.toOption.map fun workflow =>
      (workflow.depthOf 0, workflow.parentsOf 0, workflow.depthOrder)) =
        some (2, [1, 2, 3], [3, 1, 2, 0]) := by
    decide +kernel
  simp only [hbuild, Except.toOption, Option.map_some, Option.some.injEq, Prod.mk.injEq] at hvalues
  exact ⟨hedges, hacyclic, workflow, hbuild, horderly.trans hbuild, hanalyses workflow hbuild,
    hvalues⟩

end Diamond

end WattPlan
