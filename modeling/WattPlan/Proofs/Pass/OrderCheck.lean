import WattPlan.Pass
import WattPlan.Proofs.Exact
import WattPlan.Proofs.Traversals
import WattPlan.Proofs.Workflow.Draft

/-!
# The check of an order of jobs

The check of an order writes down the place of each listed job and compares the places of parents
with those of their children. Jobs that are not listed have a place past the end, so in an order
without repetition the places are those of the jobs in the list, listed or not (`placesIn_eq_idxOf`).
An order of some jobs of an arranged workflow passes just when each of them comes after all its
parents (`verifyTopological_eq_ok_iff`). Of a drafted workflow an order that does not pass is
reported by the first job that comes too early and a parent that it comes before:
`verifyTopological_iff_respects`.
-/

namespace WattPlan

/-- In a list without repetition a job has as many jobs before it as its place says. -/
theorem idxOf_middle {before after : List JobId} {id : JobId}
    (hnodup : (before ++ id :: after).Nodup) : (before ++ id :: after).idxOf id = before.length := by
  have hnew : id ∉ before := fun hid =>
    (List.nodup_append.1 hnodup).2.2 id hid id List.mem_cons_self rfl
  rw [List.idxOf_append_of_notMem hnew, List.idxOf_cons_self, Nat.add_zero]

namespace Respects

variable {needs : JobId → List JobId} {order after : List JobId}

/-- Of a list without repetition, the beginning respects needs that have smaller places than the
jobs of the beginning that have them. -/
theorem of_idxOf_lt (hnodup : (order ++ after).Nodup)
    (h : ∀ id ∈ order, ∀ need ∈ needs id,
      (order ++ after).idxOf need < (order ++ after).idxOf id) : Respects needs order := by
  rintro before id rest rfl need hneed
  have hlt := h id (by simp) need hneed
  rw [List.append_assoc, List.cons_append] at hnodup hlt
  rw [idxOf_middle hnodup] at hlt
  by_contra hnot
  rw [List.idxOf_append_of_notMem hnot] at hlt
  omega

end Respects

namespace Pass

variable {α : Type} {workflow : Workflow α} {order : List JobId}

section Places

/-- Writing down the places of jobs, counted from a first one, for a list without repetition: a
listed job gets its place, and any other one keeps what was there. -/
theorem getD_foldl_places (hnodup : order.Nodup) (first default : Nat) (places : Array Nat)
    {id : JobId} (hid : id < places.size) :
    ((order.zipIdx first).foldl (fun places (id, place) => places.setIfInBounds id place)
      places).getD id default =
        if id ∈ order then first + order.idxOf id else places.getD id default := by
  induction order generalizing first places with
  | nil => rfl
  | cons head rest ih =>
      obtain ⟨hhead, hrest⟩ := List.nodup_cons.1 hnodup
      rw [List.zipIdx_cons, List.foldl_cons,
        ih hrest (first + 1) (places.setIfInBounds head first) (by simpa using hid)]
      by_cases hsame : head = id
      · subst hsame
        -- The job is not listed again, so nothing behind it writes at its place.
        rw [if_neg hhead, if_pos List.mem_cons_self, List.idxOf_cons_self,
          Array.getD_eq_getD_getElem?, Array.getElem?_setIfInBounds_self, if_pos hid,
          Option.getD_some, Nat.add_zero]
      · rw [Array.getD_eq_getD_getElem?, Array.getElem?_setIfInBounds_ne hsame,
          ← Array.getD_eq_getD_getElem?]
        by_cases hmem : id ∈ rest
        · rw [if_pos hmem, if_pos (List.mem_cons_of_mem head hmem), List.idxOf_cons_ne rest hsame]
          omega
        · rw [if_neg hmem, if_neg (List.not_mem_cons_of_ne_of_not_mem (Ne.symm hsame) hmem)]

/-- In a list without repetition the places are those that the jobs have in it, and the length of
the list for a job that is not listed. -/
theorem placesIn_eq_idxOf (hnodup : order.Nodup) {jobs : Nat} {id : JobId} (hid : id < jobs) :
    (placesIn jobs order).getD id order.length = order.idxOf id := by
  rw [placesIn, getD_foldl_places hnodup 0 _ _ (by simpa using hid), Nat.zero_add]
  split
  · rfl
  · rename_i hnot
    rw [List.idxOf_eq_length hnot, Array.getD_eq_getD_getElem?, Array.getElem?_replicate,
      if_pos hid, Option.getD_some]

end Places

section Check

variable {place : JobId → Nat} {id : JobId}

/-- A job has a right place just when that is later than those of its parents. -/
theorem checkPlace_eq_ok_iff :
    checkPlace workflow place id = .ok () ↔
      ∀ parent ∈ workflow.parentsOf id, place parent < place id := by
  unfold checkPlace Workflow.parentsOf
  cases workflow.job? id with
  | none => simp
  | some job =>
      dsimp only [Option.map_some, Option.getD_some]
      split
      · rename_i parent hfound
        have hle := List.find?_some hfound
        simp only [reduceCtorEq, false_iff, not_forall, Nat.not_lt]
        exact ⟨parent, List.mem_of_find?_eq_some hfound, by simpa using hle⟩
      · rename_i hnone
        simpa using hnone

/-- A job without a right place is reported with a parent that does not come before it. -/
theorem checkPlace_eq_error {fault : PlanFault α} (h : checkPlace workflow place id = .error fault) :
    ∃ job, workflow.job? id = some job ∧ ∃ parent ∈ job.parents, place id ≤ place parent ∧
      fault = .inconsistentPrecedence workflow.name job.name (workflow.jobName parent) := by
  unfold checkPlace at h
  split at h
  · cases h
  · rename_i job hjob
    split at h
    · rename_i parent hfound
      have hle := List.find?_some hfound
      exact ⟨job, hjob, parent, List.mem_of_find?_eq_some hfound, by simpa using hle,
        (Except.error.inj h).symm⟩
    · cases h

end Check

section Order

variable (harranged : workflow.Arranged) (hnodup : order.Nodup)
include harranged hnodup

/-- The places that the check writes down compare a parent and its child as the order does. -/
theorem placesIn_lt_iff {id parent : JobId} (hid : id ∈ workflow.jobIds)
    (hparent : parent ∈ workflow.parentsOf id) :
    (placesIn workflow.jobs.length order).getD parent order.length <
        (placesIn workflow.jobs.length order).getD id order.length ↔
      order.idxOf parent < order.idxOf id := by
  have hmem := (harranged.parentsOf_lt hid hparent).1
  rw [placesIn_eq_idxOf hnodup (harranged.mem_jobIds.1 hid),
    placesIn_eq_idxOf hnodup (harranged.mem_jobIds.1 hmem)]

/-- An order of some jobs passes the check just when each job comes after all its parents. -/
theorem verifyTopological_eq_ok_iff (hids : ∀ id ∈ order, id ∈ workflow.jobIds) :
    verifyTopological workflow order = .ok () ↔ Respects workflow.parentsOf order := by
  rw [verifyTopological, forM_eq_ok_iff]
  simp only [checkPlace_eq_ok_iff]
  constructor
  · intro h
    have hall : (order ++ []).Nodup := by rwa [List.append_nil]
    refine .of_idxOf_lt hall fun id hid parent hparent => ?_
    rw [List.append_nil]
    exact (placesIn_lt_iff harranged hnodup (hids id hid) hparent).1 (h id hid parent hparent)
  · intro h id hid parent hparent
    exact (placesIn_lt_iff harranged hnodup (hids id hid) hparent).2 (h.idxOf_lt hid hparent)

/-- An order that does not pass is reported by the first job that is not after all its parents, with
a parent that is missing or comes after it. -/
theorem verifyTopological_eq_error (hids : ∀ id ∈ order, id ∈ workflow.jobIds)
    {fault : PlanFault α} (h : verifyTopological workflow order = .error fault) :
    ∃ before job after parent, order = before ++ job.id :: after ∧ job ∈ workflow.jobs ∧
      parent ∈ workflow.jobs ∧ parent.id ∈ job.parents ∧
      (parent.id ∉ order ∨ parent.id ∈ after) ∧ Respects workflow.parentsOf before ∧
      fault = .inconsistentPrecedence workflow.name job.name parent.name := by
  obtain ⟨before, id, after, rfl, hbefore, hcheck⟩ := exists_of_forM_eq_error h
  obtain ⟨job, hfound, parent, hparent, hle, rfl⟩ := checkPlace_eq_error hcheck
  obtain rfl := harranged.id_eq hfound
  have hjob := Workflow.mem_of_job? hfound
  obtain ⟨upper, hupper, hdepth, -⟩ := harranged.parent hjob hparent
  obtain rfl := harranged.id_eq hupper
  have hearly : ¬ (before ++ job.id :: after).idxOf upper.id <
      (before ++ job.id :: after).idxOf job.id := by
    rw [← placesIn_lt_iff harranged hnodup (hids job.id (by simp))
      (by rwa [harranged.parentsOf_id hjob])]
    exact Nat.not_lt.2 hle
  refine ⟨before, job, after, upper, rfl, hjob, Workflow.mem_of_job? hupper, hparent, ?_, ?_, ?_⟩
  · by_contra hlisted
    rw [not_or, not_not, List.mem_append, List.mem_cons] at hlisted
    obtain ⟨hupper | hsame | hafter, hnot⟩ := hlisted
    · rw [idxOf_middle hnodup, List.idxOf_append_of_mem hupper] at hearly
      exact hearly (List.idxOf_lt_length_of_mem hupper)
    · rw [hsame, hfound] at hupper
      obtain rfl := Option.some.inj hupper
      exact Nat.lt_irrefl _ hdepth
    · exact hnot hafter
  · refine .of_idxOf_lt hnodup fun other hother need hneed => ?_
    rw [← placesIn_lt_iff harranged hnodup (hids other (List.mem_append_left _ hother)) hneed]
    exact checkPlace_eq_ok_iff.1 (hbefore other hother) need hneed
  · rw [Workflow.jobName, hupper]
    rfl

end Order

/-- A list of jobs of a drafted workflow, each listed once, passes the check just when every parent
of a listed job is listed before it. Otherwise a listed job and one of its parents are reported: the
parent is not listed, or it is listed after the job, and no job before that comes too early. -/
theorem verifyTopological_iff_respects [Scalar α] (hdrafted : workflow.Drafted)
    (hnodup : order.Nodup) (hids : ∀ id ∈ order, id ∈ workflow.jobIds) :
    (verifyTopological workflow order = .ok () ↔ Respects workflow.parentsOf order) ∧
    (¬ Respects workflow.parentsOf order →
      ∃ before job after parent, order = before ++ job.id :: after ∧ job ∈ workflow.jobs ∧
        parent ∈ workflow.jobs ∧ parent.id ∈ job.parents ∧
        (parent.id ∉ order ∨ parent.id ∈ after) ∧ Respects workflow.parentsOf before ∧
        verifyTopological workflow order =
          .error (.inconsistentPrecedence workflow.name job.name parent.name)) := by
  have hiff := verifyTopological_eq_ok_iff hdrafted.arranged hnodup hids
  refine ⟨hiff, fun hnot => ?_⟩
  cases hverify : verifyTopological workflow order with
  | ok => exact absurd (hiff.1 hverify) hnot
  | error fault =>
      obtain ⟨before, job, after, parent, horder, hjob, hupper, hparent, hlisted, hbefore, hfault⟩ :=
        verifyTopological_eq_error hdrafted.arranged hnodup hids hverify
      exact ⟨before, job, after, parent, horder, hjob, hupper, hparent, hlisted, hbefore,
        congrArg _ hfault⟩

end Pass

/-!
## A house

Three jobs, the last of which comes first: the walls stand on the base, and the roof needs both.
-/

namespace House

open Exact Exact.WithoutExponentials

def workflow : Workflow (Exact ℚ) where
  id := 5
  name := "house"
  submittedAt := finite 0
  reliabilityGoal := none
  deadline := none
  jobs :=
    [⟨0, "roof", finite 3, 2, [1, 2], [], [], [], [], none⟩,
      ⟨1, "walls", finite 2, 1, [2], [0], [], [], [], none⟩,
      ⟨2, "base", finite 1, 0, [], [0, 1], [], [], [], none⟩]

theorem workflow_drafted : workflow.Drafted := by
  refine ⟨_, (WorkflowDraft.Drawn.empty 5 "house" (finite 0) none).perform
    [.job "roof" (finite 3), .job "walls" (finite 2), .job "base" (finite 1), .dependency 1 0,
      .dependency 2 0, .dependency 2 1], ?_⟩
  with_unfolding_all rfl

/-- Base and walls may come without the roof, but the roof may not come before the walls. -/
theorem roof_comes_last : workflow.Drafted ∧
    [2, 1].Nodup ∧ (∀ id ∈ [2, 1], id ∈ workflow.jobIds) ∧
    Pass.verifyTopological workflow [2, 1] = .ok () ∧
    [2, 0, 1].Nodup ∧ (∀ id ∈ [2, 0, 1], id ∈ workflow.jobIds) ∧
    ¬ Respects workflow.parentsOf [2, 0, 1] ∧
    ∃ before job after parent, [2, 0, 1] = before ++ job.id :: after ∧ job ∈ workflow.jobs ∧
      parent ∈ workflow.jobs ∧ parent.id ∈ job.parents ∧
      (parent.id ∉ [2, 0, 1] ∨ parent.id ∈ after) ∧ Respects workflow.parentsOf before ∧
      Pass.verifyTopological workflow [2, 0, 1] =
        .error (.inconsistentPrecedence "house" job.name parent.name) := by
  have hbase : Respects workflow.parentsOf [2] := Respects.nil.snoc (by decide)
  have hearly : Respects workflow.parentsOf [2, 1] := hbase.snoc (by decide)
  have hlate : ¬ Respects workflow.parentsOf [2, 0, 1] := fun h =>
    absurd (h [2] 0 [1] rfl 1 (by decide)) (by decide)
  exact ⟨workflow_drafted, by decide, by decide,
    (Pass.verifyTopological_iff_respects workflow_drafted (by decide) (by decide)).1.2 hearly,
    by decide, by decide, hlate,
    (Pass.verifyTopological_iff_respects workflow_drafted (by decide) (by decide)).2 hlate⟩

/-- A missing parent is reported like one that comes too late. -/
example : Pass.verifyTopological workflow [2, 0] =
    .error (.inconsistentPrecedence "house" "roof" "walls") := by
  rfl

end House

end WattPlan
