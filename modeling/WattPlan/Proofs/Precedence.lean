import Mathlib.Data.List.Basic
import WattPlan.Workflow

/-!
# Orders of jobs that respect precedence

An order of jobs respects what the jobs need if everything a job needs comes before it. An arranged
workflow is one whose jobs are numbered by their places, whose parents and children mirror each
other, and whose depths grow along every dependency. In such a workflow the order by depth respects
the parents and its reverse respects the children: `depthOrder_respects_parents` and
`reverse_depthOrder_respects_children`.
-/

namespace WattPlan

/-- Everything that a job of the order needs comes before it. -/
def Respects (needs : JobId → List JobId) (order : List JobId) : Prop :=
  ∀ before id after, order = before ++ id :: after → ∀ need ∈ needs id, need ∈ before

namespace Respects

variable {needs : JobId → List JobId} {order : List JobId}

/-- The empty order respects everything. -/
theorem nil : Respects needs [] := by
  intro before id after h
  simp at h

/-- A job may come next once all it needs has come. -/
theorem snoc {id : JobId} (h : Respects needs order) (hid : ∀ need ∈ needs id, need ∈ order) :
    Respects needs (order ++ [id]) := by
  intro before other after heq
  rcases List.eq_nil_or_concat after with rfl | ⟨front, last, rfl⟩
  · obtain ⟨rfl, hlast⟩ := List.append_inj' heq rfl
    obtain rfl : id = other := by simpa using hlast
    exact hid
  · have heq' : order ++ [id] = (before ++ other :: front) ++ [last] := by
      simpa using heq
    obtain ⟨rfl, -⟩ := List.append_inj' heq' rfl
    exact h before other front rfl

/-- What a job needs has a smaller place in the order. -/
theorem idxOf_lt {id need : JobId} (h : Respects needs order) (hid : id ∈ order)
    (hneed : need ∈ needs id) : order.idxOf need < order.idxOf id := by
  obtain ⟨before, after, rfl, hnot⟩ := List.eq_append_cons_of_mem hid
  have hbefore : need ∈ before := h before id after rfl need hneed
  rw [List.idxOf_append_of_mem hbefore, List.idxOf_append_of_notMem hnot]
  simp only [List.idxOf_cons_self, Nat.add_zero]
  exact List.idxOf_lt_length_of_mem hbefore

/-- An order in which earlier jobs are related to later ones respects needs to which no job is
related that has them. -/
theorem of_pairwise {R : JobId → JobId → Prop} (hsorted : order.Pairwise R)
    (hneeds : ∀ id ∈ order, ∀ need ∈ needs id, need ∈ order ∧ need ≠ id ∧ ¬ R id need) :
    Respects needs order := by
  intro before id after heq need hneed
  obtain ⟨hmem, hne, hnot⟩ := hneeds id (by simp [heq]) need hneed
  rw [heq, List.mem_append, List.mem_cons] at hmem
  rcases hmem with hmem | hsame | hmem
  · exact hmem
  · exact absurd hsame hne
  · rw [heq, List.pairwise_append, List.pairwise_cons] at hsorted
    exact absurd (hsorted.2.1.1 need hmem) hnot

/-- An order that is sorted by a rank respects the needs that lower it. -/
theorem of_rank (rank : JobId → Nat) (hsorted : order.Pairwise fun a b => rank a ≤ rank b)
    (hlt : ∀ id ∈ order, ∀ need ∈ needs id, need ∈ order ∧ rank need < rank id) :
    Respects needs order := by
  refine of_pairwise hsorted fun id hid need hneed => ?_
  obtain ⟨hmem, hrank⟩ := hlt id hid need hneed
  refine ⟨hmem, ?_, Nat.not_le_of_lt hrank⟩
  rintro rfl
  exact Nat.lt_irrefl _ hrank

end Respects

namespace Workflow

variable {α : Type}

/-- The parents of the job of a number, none where there is no such job. -/
def parentsOf (workflow : Workflow α) (id : JobId) : List JobId :=
  ((workflow.job? id).map Job.parents).getD []

/-- The children of the job of a number, none where there is no such job. -/
def childrenOf (workflow : Workflow α) (id : JobId) : List JobId :=
  ((workflow.job? id).map Job.children).getD []

/-- The depth of the job of a number, 0 where there is no such job. -/
def depthOf (workflow : Workflow α) (id : JobId) : Nat :=
  ((workflow.job? id).map Job.depth).getD 0

/-- A workflow in which jobs are numbered by place, parents and children mirror each other, and
every parent has a smaller depth. -/
structure Arranged (workflow : Workflow α) : Prop where
  id_eq : ∀ {id job}, workflow.job? id = some job → job.id = id
  parent : ∀ {job id}, job ∈ workflow.jobs → id ∈ job.parents →
    ∃ parent, workflow.job? id = some parent ∧ parent.depth < job.depth ∧ job.id ∈ parent.children
  child : ∀ {job id}, job ∈ workflow.jobs → id ∈ job.children →
    ∃ child, workflow.job? id = some child ∧ job.id ∈ child.parents

/-- A job that is looked up is a job of the workflow. -/
theorem mem_of_job? {workflow : Workflow α} {id : JobId} {job : Job α}
    (h : workflow.job? id = some job) : job ∈ workflow.jobs :=
  List.mem_of_getElem? h

/-- Numbers below the number of jobs are those of jobs. -/
theorem job?_isSome {workflow : Workflow α} {id : JobId} (h : id < workflow.jobs.length) :
    ∃ job, workflow.job? id = some job :=
  ⟨workflow.jobs[id], List.getElem?_eq_getElem h⟩

/-- A fold of maxima is at least its start and every member of the list. -/
theorem le_foldl_max {depths : List Nat} {start depth : Nat}
    (h : depth ≤ start ∨ depth ∈ depths) : depth ≤ depths.foldl max start := by
  induction depths generalizing start with
  | nil => simpa using h
  | cons first rest ih =>
      apply ih
      rcases h with h | h
      · exact .inl (Nat.le_trans h (Nat.le_max_left _ _))
      · rcases List.mem_cons.1 h with rfl | h
        · exact .inl (Nat.le_max_right _ _)
        · exact .inr h

/-- The depth of a job is at most the largest one. -/
theorem depth_le_maxDepth {workflow : Workflow α} {job : Job α} (h : job ∈ workflow.jobs) :
    job.depth ≤ workflow.maxDepth :=
  le_foldl_max (.inr (List.mem_map_of_mem h))

/-- Where all depths are below a bound, so is the largest one. -/
theorem maxDepth_lt {workflow : Workflow α} {bound : Nat} (hpos : 0 < bound)
    (h : ∀ job ∈ workflow.jobs, job.depth < bound) : workflow.maxDepth < bound := by
  refine List.foldlRecOn (motive := (· < bound)) _ _ hpos fun largest hlargest depth hdepth => ?_
  obtain ⟨job, hjob, rfl⟩ := List.mem_map.1 hdepth
  exact Nat.max_lt.2 ⟨hlargest, h job hjob⟩

/-- Where there are jobs, one of them has the largest depth. -/
theorem exists_depth_eq_maxDepth {workflow : Workflow α} (h : workflow.jobs ≠ []) :
    ∃ job ∈ workflow.jobs, job.depth = workflow.maxDepth := by
  by_contra hnone
  push Not at hnone
  have hlt : ∀ job ∈ workflow.jobs, job.depth < workflow.maxDepth := fun job hjob =>
    Nat.lt_of_le_of_ne (depth_le_maxDepth hjob) (hnone job hjob)
  obtain ⟨job, hjob⟩ := List.exists_mem_of_ne_nil _ h
  exact Nat.lt_irrefl _ (maxDepth_lt (Nat.zero_lt_of_lt (hlt job hjob)) hlt)

/-- Grouping the members of a list by a key below a bound permutes those whose key is below it. -/
theorem flatMap_filter_perm {β : Type} (key : β → Nat) (xs : List β) (bound : Nat) :
    ((List.range bound).flatMap fun k => xs.filter fun x => key x = k).Perm
      (xs.filter fun x => key x < bound) := by
  induction bound with
  | zero => simp
  | succ bound ih =>
      have hsplit := List.filter_append_perm (fun x => decide (key x < bound))
        (xs.filter fun x => key x < bound + 1)
      have hlow : (xs.filter fun x => key x < bound + 1).filter (fun x => decide (key x < bound)) =
          xs.filter fun x => key x < bound := by
        rw [List.filter_filter]
        exact List.filter_congr fun x _ => by
          by_cases h : key x < bound <;> simp [h]; omega
      have htop : (xs.filter fun x => key x < bound + 1).filter (fun x => !decide (key x < bound)) =
          xs.filter fun x => key x = bound := by
        rw [List.filter_filter]
        exact List.filter_congr fun x _ => by
          simp only [← decide_not, ← Bool.decide_and, decide_eq_decide]
          omega
      rw [List.range_succ, List.flatMap_append]
      rw [hlow, htop] at hsplit
      exact (List.Perm.append ih (by simp)).trans hsplit

/-- The order by depth is a permutation of the numbers of the jobs. -/
theorem depthOrder_perm (workflow : Workflow α) : workflow.depthOrder.Perm workflow.jobIds := by
  have hgroups : workflow.depthOrder = ((List.range (workflow.maxDepth + 1)).flatMap fun depth =>
      workflow.jobs.filter fun job => job.depth = depth).map Job.id := by
    simp [depthOrder, depthGroups, List.flatMap_def, List.map_flatten, Function.comp_def]
  have hall : (workflow.jobs.filter fun job => job.depth < workflow.maxDepth + 1) =
      workflow.jobs :=
    List.filter_eq_self.2 fun job hjob => by
      simpa using Nat.lt_succ_of_le (depth_le_maxDepth hjob)
  have hperm := flatMap_filter_perm Job.depth workflow.jobs (workflow.maxDepth + 1)
  rw [hall] at hperm
  rw [hgroups]
  exact hperm.map Job.id

namespace Arranged

variable {workflow : Workflow α}

/-- A job of the workflow is found under its number. -/
theorem job?_id (h : workflow.Arranged) {job : Job α} (hjob : job ∈ workflow.jobs) :
    workflow.job? job.id = some job := by
  obtain ⟨id, hid⟩ := List.mem_iff_getElem?.1 hjob
  rw [h.id_eq hid]
  exact hid

/-- The numbers of the jobs are those below their number. -/
theorem jobIds_eq (h : workflow.Arranged) : workflow.jobIds = List.range workflow.jobs.length := by
  apply List.ext_getElem
  · simp [jobIds]
  · intro id hid _
    simp only [jobIds, List.length_map] at hid
    simp only [jobIds, List.getElem_map, List.getElem_range]
    exact h.id_eq (List.getElem?_eq_getElem hid)

/-- A number is that of a job just when it is below the number of jobs. -/
theorem mem_jobIds (h : workflow.Arranged) {id : JobId} :
    id ∈ workflow.jobIds ↔ id < workflow.jobs.length := by
  rw [h.jobIds_eq, List.mem_range]

/-- No two jobs have the same number. -/
theorem nodup_jobIds (h : workflow.Arranged) : workflow.jobIds.Nodup := by
  rw [h.jobIds_eq]
  exact List.nodup_range

/-- The parents of a job of the workflow, looked up by its number. -/
theorem parentsOf_id (h : workflow.Arranged) {job : Job α} (hjob : job ∈ workflow.jobs) :
    workflow.parentsOf job.id = job.parents := by
  simp [parentsOf, h.job?_id hjob]

/-- The children of a job of the workflow, looked up by its number. -/
theorem childrenOf_id (h : workflow.Arranged) {job : Job α} (hjob : job ∈ workflow.jobs) :
    workflow.childrenOf job.id = job.children := by
  simp [childrenOf, h.job?_id hjob]

/-- The depth of a job of the workflow, looked up by its number. -/
theorem depthOf_id (h : workflow.Arranged) {job : Job α} (hjob : job ∈ workflow.jobs) :
    workflow.depthOf job.id = job.depth := by
  simp [depthOf, h.job?_id hjob]

/-- Of two jobs of the workflow, one that the other depends on has the smaller depth. -/
theorem depth_lt (h : workflow.Arranged) {job upper : Job α} (hjob : job ∈ workflow.jobs)
    (hupper : upper ∈ workflow.jobs) (hparent : upper.id ∈ job.parents) :
    upper.depth < job.depth := by
  obtain ⟨parent, hfound, hlt, -⟩ := h.parent hjob hparent
  rw [h.job?_id hupper] at hfound
  obtain rfl := Option.some.inj hfound
  exact hlt

/-- A parent is a job of the workflow of smaller depth. -/
theorem parentsOf_lt (h : workflow.Arranged) {id parent : JobId} (hmem : id ∈ workflow.jobIds)
    (hparent : parent ∈ workflow.parentsOf id) :
    parent ∈ workflow.jobIds ∧ workflow.depthOf parent < workflow.depthOf id := by
  obtain ⟨job, hjob, rfl⟩ := List.mem_map.1 hmem
  rw [h.parentsOf_id hjob] at hparent
  obtain ⟨upper, hupper, hdepth, -⟩ := h.parent hjob hparent
  have hmem := mem_of_job? hupper
  have hid := h.id_eq hupper
  refine ⟨List.mem_map.2 ⟨upper, hmem, hid⟩, ?_⟩
  rwa [h.depthOf_id hjob, ← hid, h.depthOf_id hmem]

/-- A child is a job of the workflow of larger depth. -/
theorem childrenOf_lt (h : workflow.Arranged) {id child : JobId} (hmem : id ∈ workflow.jobIds)
    (hchild : child ∈ workflow.childrenOf id) :
    child ∈ workflow.jobIds ∧ workflow.depthOf id < workflow.depthOf child := by
  obtain ⟨job, hjob, rfl⟩ := List.mem_map.1 hmem
  rw [h.childrenOf_id hjob] at hchild
  obtain ⟨lower, hlower, hparent⟩ := h.child hjob hchild
  have hlow := mem_of_job? hlower
  have hid := h.id_eq hlower
  have hmem : child ∈ workflow.jobIds := List.mem_map.2 ⟨lower, hlow, hid⟩
  refine ⟨hmem, (h.parentsOf_lt hmem ?_).2⟩
  rwa [← hid, h.parentsOf_id hlow]

/-- The children of a job are the jobs that it is a parent of. -/
theorem mem_children_iff (h : workflow.Arranged) {job : Job α} (hjob : job ∈ workflow.jobs)
    {child : JobId} : child ∈ job.children ↔ job.id ∈ workflow.parentsOf child := by
  constructor
  · intro hchild
    obtain ⟨lower, hlower, hparent⟩ := h.child hjob hchild
    rwa [← h.id_eq hlower, h.parentsOf_id (mem_of_job? hlower)]
  · intro hparent
    cases hlower : workflow.job? child with
    | none => simp [parentsOf, hlower] at hparent
    | some lower =>
        rw [← h.id_eq hlower] at hparent ⊢
        rw [h.parentsOf_id (mem_of_job? hlower)] at hparent
        obtain ⟨upper, hupper, -, hchild⟩ := h.parent (mem_of_job? hlower) hparent
        rwa [Option.some.inj ((h.job?_id hjob).symm.trans hupper)]

/-- The depth of a number is at most the largest depth. -/
theorem depthOf_le (h : workflow.Arranged) {id : JobId} (hmem : id ∈ workflow.jobIds) :
    workflow.depthOf id ≤ workflow.maxDepth := by
  obtain ⟨job, hjob, rfl⟩ := List.mem_map.1 hmem
  rw [h.depthOf_id hjob]
  exact depth_le_maxDepth hjob

/-- The order by depth has growing depths. -/
theorem depthOrder_sorted (h : workflow.Arranged) :
    workflow.depthOrder.Pairwise fun a b => workflow.depthOf a ≤ workflow.depthOf b := by
  have hgroup : ∀ depth, ∀ id ∈ (workflow.jobs.filter fun job => job.depth = depth).map Job.id,
      workflow.depthOf id = depth := by
    intro depth id hid
    obtain ⟨job, hjob, rfl⟩ := List.mem_map.1 hid
    obtain ⟨hjob, hdepth⟩ := List.mem_filter.1 hjob
    rw [h.depthOf_id hjob]
    simpa using hdepth
  rw [depthOrder, depthGroups, ← List.flatMap_def, List.pairwise_flatMap]
  constructor
  · intro depth _
    refine List.Pairwise.imp_of_mem ?_ (List.pairwise_of_forall fun _ _ => True.intro)
    intro a b ha hb _
    exact Nat.le_of_eq ((hgroup depth a ha).trans (hgroup depth b hb).symm)
  · refine List.pairwise_lt_range.imp fun hlt a ha b hb => ?_
    rw [hgroup _ a ha, hgroup _ b hb]
    exact Nat.le_of_lt hlt

/-- In an order of all jobs that is sorted by depth, every job comes after its parents. -/
theorem respects_parents_of_sorted (h : workflow.Arranged) {order : List JobId}
    (hperm : order.Perm workflow.jobIds)
    (hsorted : order.Pairwise fun a b => workflow.depthOf a ≤ workflow.depthOf b) :
    Respects workflow.parentsOf order := by
  refine Respects.of_rank workflow.depthOf hsorted fun id hid need hneed => ?_
  rw [hperm.mem_iff] at hid ⊢
  exact h.parentsOf_lt hid hneed

/-- In the order by depth every job comes after its parents. -/
theorem depthOrder_respects_parents (h : workflow.Arranged) :
    Respects workflow.parentsOf workflow.depthOrder :=
  h.respects_parents_of_sorted workflow.depthOrder_perm h.depthOrder_sorted

/-- In the reverse of the order by depth every job comes after its children. -/
theorem reverse_depthOrder_respects_children (h : workflow.Arranged) :
    Respects workflow.childrenOf workflow.depthOrder.reverse := by
  apply Respects.of_rank fun id => workflow.maxDepth - workflow.depthOf id
  · rw [List.pairwise_reverse]
    exact h.depthOrder_sorted.imp fun hle => by omega
  · intro id hid need hneed
    rw [List.mem_reverse, workflow.depthOrder_perm.mem_iff] at hid ⊢
    obtain ⟨hmem, hlt⟩ := h.childrenOf_lt hid hneed
    have hle := h.depthOf_le hmem
    exact ⟨hmem, by omega⟩

end Arranged

end Workflow

end WattPlan
