import WattPlan.Proofs.LocalSearch.Attempts
import WattPlan.Proofs.LocalSearch.Exchanges
import WattPlan.Proofs.Pass.Sweeps
import WattPlan.Proofs.Workflow.Analysis

/-!
# Perturbed orders

In a drafted workflow every tie group has more than one job, and each of them once. So a
perturbation moves jobs inside the groups that it picks only (`perturb_keeps`). Tie groups by depth
have no job in common and their jobs are of one depth, so an order by depth stays one. Tie groups by
parent can have jobs in common, and then exchanges can undo one another: `perturb_changes` says when
an order is changed. `Crossed` is a workflow where the same two jobs are exchanged twice.
-/

namespace WattPlan

open LocalSearch

section Orders

variable {α : Type} [Scalar α] {workflow : Workflow α} {order base : List JobId}
  {groups : List (List JobId)} {group : List JobId}

namespace Workflow

/-- The children of a job of a drafted workflow come in growing order. -/
theorem Drafted.children_pairwise (h : workflow.Drafted) {job : Job α}
    (hjob : job ∈ workflow.jobs) : job.children.Pairwise (· < ·) := by
  obtain ⟨draft, hdrawn, hbuild⟩ := h
  have hunplanned : { job with binding := none } ∈ workflow.unplanned.jobs :=
    List.mem_map_of_mem hjob
  exact ((hdrawn.analyses hbuild).children _ hunplanned).1

omit [Scalar α] in
/-- A tie group has more than one job. -/
theorem one_lt_length_of_mem_tieGroups {rule : TieRule} (hgroup : group ∈ workflow.tieGroups rule) :
    1 < group.length := by
  cases rule <;> simpa using (List.mem_filter.1 hgroup).2

/-- A tie group has no job twice, and its jobs are those of the workflow. -/
theorem Drafted.nodup_of_mem_tieGroups (h : workflow.Drafted) {rule : TieRule}
    (hgroup : group ∈ workflow.tieGroups rule) :
    group.Nodup ∧ ∀ id ∈ group, id ∈ workflow.jobIds := by
  cases rule with
  | sharedDepth =>
      have hlisted : group ∈ workflow.depthGroups := (List.mem_filter.1 hgroup).1
      obtain ⟨depth, -, rfl⟩ := List.mem_map.1 hlisted
      have hsublist : ((workflow.jobs.filter fun job => job.depth = depth).map Job.id).Sublist
          workflow.jobIds := List.filter_sublist.map Job.id
      exact ⟨h.arranged.nodup_jobIds.sublist hsublist, fun id hid => hsublist.subset hid⟩
  | sharedParent =>
      have hlisted : group ∈ workflow.jobs.map Job.children := (List.mem_filter.1 hgroup).1
      obtain ⟨job, hjob, rfl⟩ := List.mem_map.1 hlisted
      refine ⟨(h.children_pairwise hjob).imp Nat.ne_of_lt, fun id hid => ?_⟩
      rw [← h.arranged.childrenOf_id hjob] at hid
      exact (h.arranged.childrenOf_lt (List.mem_map_of_mem hjob) hid).1

omit [Scalar α] in
/-- The jobs of a tie group by depth are of one depth. -/
theorem Arranged.depthOf_eq_of_mem_tieGroups (h : workflow.Arranged)
    (hgroup : group ∈ workflow.tieGroups .sharedDepth) {a b : JobId} (ha : a ∈ group)
    (hb : b ∈ group) : workflow.depthOf a = workflow.depthOf b := by
  have hlisted : group ∈ workflow.depthGroups := (List.mem_filter.1 hgroup).1
  obtain ⟨depth, hdepth⟩ := List.mem_iff_getElem?.1 hlisted
  rw [h.depthOf_of_mem_depthGroup hdepth ha, h.depthOf_of_mem_depthGroup hdepth hb]

omit [Scalar α] in
/-- Tie groups by depth have no job in common. -/
theorem Arranged.tieGroups_disjoint (h : workflow.Arranged) :
    (workflow.tieGroups .sharedDepth).Pairwise List.Disjoint := by
  refine List.Pairwise.filter _ (List.pairwise_iff_getElem.2 fun i j hi hj hlt id hid hid' => ?_)
  have hfirst := h.depthOf_of_mem_depthGroup (List.getElem?_eq_getElem hi) hid
  have hsecond := h.depthOf_of_mem_depthGroup (List.getElem?_eq_getElem hj) hid'
  omega

end Workflow

namespace LocalSearch

variable {rule : TieRule} {count : Nat} {generator : Generator} {pairs : List (JobId × JobId)}

/-- What perturbing an order in tie groups at given places comes to. Two members are exchanged in
each of these groups, and all other jobs keep their places. In tie groups by depth the depth at
every place is kept, so an order by depth is one in which the jobs are placed. -/
structure Perturbs (workflow : Workflow α) (rule : TieRule) (base : List JobId) (count : Nat)
    (places : List Nat) (order : List JobId) : Prop where
  sample : Generator.IsSample (workflow.tieGroups rule).length
    (min count (workflow.tieGroups rule).length) places
  exchanged : ∃ pairs, List.Forall₂ DrawnFrom
      (places.map fun place => (workflow.tieGroups rule).getD place []) pairs ∧
    order = exchangeAll base pairs
  perm : order.Perm base
  kept : ∀ (place : Nat) id, base[place]? = some id →
    (∀ picked ∈ places, id ∉ (workflow.tieGroups rule).getD picked []) → order[place]? = some id
  unperturbed : count = 0 ∨ workflow.tieGroups rule = [] → order = base
  depths : rule = .sharedDepth → order.map workflow.depthOf = base.map workflow.depthOf
  precedence : rule = .sharedDepth →
    (base.Pairwise fun a b => workflow.depthOf a ≤ workflow.depthOf b) →
    Respects workflow.parentsOf order
  commitOrder : rule = .sharedDepth →
    (base.Pairwise fun a b => workflow.depthOf a ≤ workflow.depthOf b) →
    ∀ problem : Problem α, problem.workflow = workflow → ∀ timelines generator,
      ∃ solution following,
        (Pass.run problem timelines order).run generator = (.ok solution, following) ∧
        solution.commitOrder = order

/-- Members of picked tie groups are jobs of the order. -/
theorem mem_of_drawnFrom (hworkflow : workflow.Drafted) (hbase : base.Perm workflow.jobIds)
    (hpairs : List.Forall₂ DrawnFrom
      (pickedGroups (workflow.tieGroups rule) count generator) pairs) :
    ∀ pair ∈ pairs, pair.1 ∈ base ∧ pair.2 ∈ base := by
  intro pair hpair
  obtain ⟨group, hgroup, hdrawn⟩ := forall₂_exists_left hpairs hpair
  have hjobs := (hworkflow.nodup_of_mem_tieGroups (mem_of_mem_pickedGroups hgroup)).2
  rw [hbase.mem_iff, hbase.mem_iff]
  exact ⟨hjobs _ hdrawn.first, hjobs _ hdrawn.second⟩

/-- A perturbation in tie groups exchanges two distinct members of each group that it picks. -/
theorem perturb_tieGroups (hworkflow : workflow.Drafted) (rule : TieRule) (base : List JobId)
    (count : Nat) (generator : Generator) :
    ∃ pairs, List.Forall₂ DrawnFrom (pickedGroups (workflow.tieGroups rule) count generator) pairs ∧
      ((perturb base (workflow.tieGroups rule) count).run generator).1 = exchangeAll base pairs :=
  perturb_exchanges (fun _ hgroup => ⟨(hworkflow.nodup_of_mem_tieGroups hgroup).1,
    Workflow.one_lt_length_of_mem_tieGroups hgroup⟩) base count generator

/-- Of an order of all jobs, a perturbation in tie groups keeps everything outside the groups that
it picks, and in tie groups by depth the depth at every place. -/
theorem perturb_keeps (hworkflow : workflow.Drafted) (rule : TieRule)
    (hbase : base.Perm workflow.jobIds) (count : Nat) (generator : Generator) :
    Perturbs workflow rule base count (pickedPlaces (workflow.tieGroups rule) count generator)
      ((perturb base (workflow.tieGroups rule) count).run generator).1 := by
  have harranged := hworkflow.arranged
  have hsample := pickedPlaces_isSample (workflow.tieGroups rule) count generator
  obtain ⟨pairs, hpairs, hresult⟩ := perturb_tieGroups hworkflow rule base count generator
  have hperm := perturb_yields base (workflow.tieGroups rule) count generator
  have hnodup := hbase.nodup_iff.2 harranged.nodup_jobIds
  have hjobs := mem_of_drawnFrom hworkflow hbase hpairs
  rw [hresult] at hperm ⊢
  have hdepths : rule = .sharedDepth →
      (exchangeAll base pairs).map workflow.depthOf = base.map workflow.depthOf := by
    rintro rfl
    refine map_exchangeAll hnodup hjobs workflow.depthOf fun pair hpair => ?_
    obtain ⟨group, hgroup, hdrawn⟩ := forall₂_exists_left hpairs hpair
    exact harranged.depthOf_eq_of_mem_tieGroups (mem_of_mem_pickedGroups hgroup) hdrawn.first
      hdrawn.second
  have hprecedence : rule = .sharedDepth →
      (base.Pairwise fun a b => workflow.depthOf a ≤ workflow.depthOf b) →
      Respects workflow.parentsOf (exchangeAll base pairs) := by
    intro hrule hsorted
    refine harranged.respects_parents_of_sorted (hperm.trans hbase) ?_
    rw [← List.pairwise_map (R := (· ≤ ·)), hdepths hrule, List.pairwise_map]
    exact hsorted
  constructor
  case sample => exact hsample
  case exchanged => exact ⟨pairs, hpairs, rfl⟩
  case perm => exact hperm
  case kept =>
    intro place id hid hfree
    refine getElem?_exchangeAll hnodup hjobs hid fun pair hpair => ?_
    obtain ⟨group, hgroup, hdrawn⟩ := forall₂_exists_left hpairs hpair
    obtain ⟨picked, hpicked, rfl⟩ := List.mem_map.1 hgroup
    exact hdrawn.ne_of_not_mem (hfree picked hpicked)
  case unperturbed =>
    intro hnone
    have hlength := hpairs.length_eq
    rw [pickedGroups, List.length_map, hsample.length] at hlength
    have hempty : pairs = [] := by
      rcases hnone with hcount | hgroups
      · exact List.length_eq_zero_iff.1 (by omega)
      · rw [hgroups] at hlength
        exact List.length_eq_zero_iff.1 (by simpa using hlength.symm)
    rw [hempty]
    rfl
  case depths => exact hdepths
  case precedence => exact hprecedence
  case commitOrder =>
    rintro hrule hsorted problem rfl timelines generator
    obtain ⟨-, solution, following, -, -, hrun, horder⟩ := Pass.run_of_respects harranged
      timelines (hperm.trans hbase) (hprecedence hrule hsorted) generator
    exact ⟨solution, following, hrun, horder⟩

/-- A perturbation leaves an order of all jobs as it is just when its exchanges come to nothing.
They never do so in tie groups by depth, nor if they are odd in number, nor if one of the picked
groups has at most one job in common with the others. -/
theorem perturb_changes (hworkflow : workflow.Drafted) (rule : TieRule)
    (hbase : base.Perm workflow.jobIds) (hcount : 0 < count)
    (hgroups : workflow.tieGroups rule ≠ []) (generator : Generator) :
    ∃ pairs, List.Forall₂ DrawnFrom (pickedGroups (workflow.tieGroups rule) count generator) pairs ∧
      ((perturb base (workflow.tieGroups rule) count).run generator).1 = exchangeAll base pairs ∧
      (((perturb base (workflow.tieGroups rule) count).run generator).1 = base ↔
        transpositions pairs = 1) ∧
      (rule = .sharedDepth ∨ Odd (min count (workflow.tieGroups rule).length) ∨
          HasLoose (pickedGroups (workflow.tieGroups rule) count generator) →
        ((perturb base (workflow.tieGroups rule) count).run generator).1 ≠ base) := by
  have harranged := hworkflow.arranged
  obtain ⟨pairs, hpairs, hresult⟩ := perturb_tieGroups hworkflow rule base count generator
  have hsame := exchangeAll_eq_self_iff (hbase.nodup_iff.2 harranged.nodup_jobIds)
    (mem_of_drawnFrom hworkflow hbase hpairs)
  have hlength : pairs.length = min count (workflow.tieGroups rule).length := by
    rw [← hpairs.length_eq, pickedGroups, List.length_map]
    exact (pickedPlaces_isSample _ count generator).length
  refine ⟨pairs, hpairs, hresult, by rw [hresult, hsame], ?_⟩
  rw [hresult, ne_eq, hsame]
  rintro (rfl | hodd | hloose)
  · -- Groups by depth are disjoint, so any of the picked ones has no job in common with the others.
    refine HasLoose.transpositions_ne_one ?_ hpairs
    have hdisjoint := pickedGroups_disjoint harranged.tieGroups_disjoint count generator
    cases hpicked : pickedGroups (workflow.tieGroups .sharedDepth) count generator with
    | nil =>
        rw [hpicked, List.forall₂_nil_left_iff] at hpairs
        rw [hpairs, List.length_nil] at hlength
        have hpos := List.length_pos_iff.2 hgroups
        omega
    | cons group after =>
        rw [hpicked, List.pairwise_cons] at hdisjoint
        exact ⟨[], group, after, rfl, fun a ha _ _ _ =>
          .inl fun other hother => hdisjoint.1 other hother ha⟩
  · intro hone
    have hdistinct : ∀ pair ∈ pairs, pair.1 ≠ pair.2 := fun pair hpair =>
      (forall₂_exists_left hpairs hpair).elim fun _ hdrawn => hdrawn.2.distinct
    rw [← hlength, ← Nat.not_even_iff_odd] at hodd
    exact hodd (even_length_of_transpositions_eq_one hdistinct hone)
  · exact hloose.transpositions_ne_one hpairs

end LocalSearch

end Orders

/-!
## Crossed dependencies

Three jobs that lead to the same two others. The two are a tie group of each of the three.
-/

namespace Crossed

open Exact Exact.WithoutExponentials LocalSearch

def steps : List (WorkflowDraft.Step (Exact ℚ)) :=
  [.job "north" (finite 2), .job "middle" (finite 3), .job "south" (finite 5),
    .job "east" (finite 7), .job "west" (finite 11), .dependency 0 3, .dependency 0 4,
    .dependency 1 3, .dependency 1 4, .dependency 2 3, .dependency 2 4]

def workflow : Workflow (Exact ℚ) where
  id := 6
  name := "crossed"
  submittedAt := finite 1
  reliabilityGoal := none
  deadline := none
  jobs :=
    [⟨0, "north", finite 2, 0, [], [3, 4], [], [], [], none⟩,
      ⟨1, "middle", finite 3, 0, [], [3, 4], [], [], [], none⟩,
      ⟨2, "south", finite 5, 0, [], [3, 4], [], [], [], none⟩,
      ⟨3, "east", finite 7, 1, [0, 1, 2], [], [], [], [], none⟩,
      ⟨4, "west", finite 11, 1, [0, 1, 2], [], [], [], [], none⟩]

theorem workflow_drafted : workflow.Drafted := by
  refine ⟨_, (WorkflowDraft.Drawn.empty 6 "crossed" (finite 1) none).perform steps, ?_⟩
  cbv

/-- An order by depth stays one when jobs are exchanged at both depths. -/
theorem by_depth_keeps : workflow.Drafted ∧ [2, 0, 1, 4, 3].Perm workflow.jobIds ∧
    workflow.tieGroups .sharedDepth = [[0, 1, 2], [3, 4]] ∧
    Perturbs workflow .sharedDepth [2, 0, 1, 4, 3] 2
      (pickedPlaces (workflow.tieGroups .sharedDepth) 2 (.ofSeed 7))
      ((perturb [2, 0, 1, 4, 3] (workflow.tieGroups .sharedDepth) 2).run (.ofSeed 7)).1 ∧
    Respects workflow.parentsOf
      ((perturb [2, 0, 1, 4, 3] (workflow.tieGroups .sharedDepth) 2).run (.ofSeed 7)).1 := by
  have hbase : [2, 0, 1, 4, 3].Perm workflow.jobIds := by decide
  have hkeeps := perturb_keeps workflow_drafted .sharedDepth hbase 2 (.ofSeed 7)
  exact ⟨workflow_drafted, hbase, by decide, hkeeps, hkeeps.precedence rfl (by decide)⟩

/-- Exchanges in two of the tie groups by parent undo one another, whichever generator they are
drawn from. -/
theorem two_exchanges_cancel : workflow.Drafted ∧ [0, 1, 2, 3, 4].Perm workflow.jobIds ∧
    workflow.tieGroups .sharedParent = [[3, 4], [3, 4], [3, 4]] ∧ ∀ generator,
      ((perturb [0, 1, 2, 3, 4] (workflow.tieGroups .sharedParent) 2).run generator).1 =
        [0, 1, 2, 3, 4] := by
  have hgroups : workflow.tieGroups .sharedParent = [[3, 4], [3, 4], [3, 4]] := by decide
  refine ⟨workflow_drafted, by decide, hgroups, fun generator => ?_⟩
  obtain ⟨pairs, hpairs, hresult⟩ :=
    perturb_tieGroups workflow_drafted .sharedParent [0, 1, 2, 3, 4] 2 generator
  have hpicked : pickedGroups (workflow.tieGroups .sharedParent) 2 generator =
      List.replicate 2 [3, 4] := by
    refine List.eq_replicate_iff.2 ⟨?_, fun group hgroup => ?_⟩
    · rw [pickedGroups, List.length_map, (pickedPlaces_isSample _ 2 generator).length, hgroups]
      rfl
    · have hmem := mem_of_mem_pickedGroups hgroup
      rw [hgroups] at hmem
      simpa using hmem
  have hpair : ∀ {pair : JobId × JobId}, DrawnFrom [3, 4] pair → pair = (3, 4) ∨ pair = (4, 3) := by
    rintro ⟨a, b⟩ ⟨ha, hb, hne⟩
    simp only [List.mem_cons, List.not_mem_nil, or_false] at ha hb
    rcases ha with rfl | rfl <;> rcases hb with rfl | rfl <;> simp at hne ⊢
  rw [hpicked] at hpairs
  cases hpairs with
  | cons hfirst hrest =>
      cases hrest with
      | cons hsecond hnone =>
          cases hnone
          rw [hresult]
          rcases hpair hfirst with rfl | rfl <;> rcases hpair hsecond with rfl | rfl <;> decide

/-- An exchange in each of the three tie groups by parent changes the order. -/
theorem three_exchanges_change : workflow.Drafted ∧ [0, 1, 2, 3, 4].Perm workflow.jobIds ∧
    0 < 3 ∧ workflow.tieGroups .sharedParent ≠ [] ∧
    ((perturb [0, 1, 2, 3, 4] (workflow.tieGroups .sharedParent) 3).run (.ofSeed 7)).1 ≠
      [0, 1, 2, 3, 4] := by
  have hbase : [0, 1, 2, 3, 4].Perm workflow.jobIds := by decide
  have hgroups : workflow.tieGroups .sharedParent ≠ [] := by decide
  obtain ⟨-, -, -, -, hchanges⟩ := perturb_changes workflow_drafted .sharedParent hbase
    (show 0 < 3 by decide) hgroups (.ofSeed 7)
  exact ⟨workflow_drafted, hbase, by decide, hgroups, hchanges (.inr (.inl (by decide)))⟩

end Crossed

end WattPlan
