import Mathlib
import WattPlan.Proofs.Exact
import WattPlan.Proofs.Planner.Calls
import WattPlan.Proofs.Sorting

/-!
# The order of a batch

Workflows are compared by their keys first and by their numbers where the keys are equal
(`compare_eq_lt_iff`), which is a total order as long as any two quantities are compared by one
(`transCmp_compare`). So workflows with numbers of their own have one sorted order, and a batch comes
to the same end however it was listed. `planBatch_of_perm` states this.
-/

namespace WattPlan

variable {α : Type} [Scalar α]

namespace SubmissionOrder

/-- A workflow comes before another one: its key is smaller, or larger where the order is a
descending one; or the keys are equal and its number is smaller. -/
def Before (order : SubmissionOrder) (a b : Workflow α) : Prop :=
  compareKeys order.key a b = (if order.descending then .gt else .lt) ∨
    compareKeys order.key a b = .eq ∧ a.id < b.id

/-- The first of two workflows is the one that comes before the other. -/
theorem compare_eq_lt_iff (order : SubmissionOrder) (a b : Workflow α) :
    order.compare a b = .lt ↔ order.Before a b := by
  unfold compare Before
  rw [Ordering.then_eq_lt, Nat.compare_eq_lt]
  cases order.descending <;> simp

/-- Only workflows of one number are not told apart. -/
theorem id_eq_of_compare_eq_eq {order : SubmissionOrder} {a b : Workflow α}
    (h : order.compare a b = .eq) : a.id = b.id :=
  Nat.compare_eq_eq.1 (Ordering.then_eq_eq.1 h).2

variable [Std.TransCmp (Scalar.totalOrder : α → α → Ordering)]

/-- Keys are compared by a total order. -/
instance transCmp_compareKeys (key : SubmissionKey) :
    Std.TransCmp (compareKeys key : Workflow α → Workflow α → Ordering) := by
  cases key with
  | id => exact inferInstanceAs (Std.TransCmp (compareOn Workflow.id))
  | depth => exact inferInstanceAs (Std.TransCmp (compareOn Workflow.maxDepth))
  | jobCount =>
      exact inferInstanceAs
        (Std.TransCmp (compareOn fun workflow : Workflow α => workflow.jobs.length))
  | length => exact transCmp_quantity Workflow.totalLength

/-- Workflows are compared by a total order. -/
instance transCmp_compare (order : SubmissionOrder) :
    Std.TransCmp (order.compare : Workflow α → Workflow α → Ordering) := by
  -- A descending order compares the keys the other way around.
  have hkeys : Std.TransCmp fun a b : Workflow α =>
      if order.descending then (compareKeys order.key a b).swap else compareKeys order.key a b := by
    cases order.descending with
    | false => exact transCmp_compareKeys order.key
    | true =>
        have hopposite : (fun a b : Workflow α => (compareKeys order.key a b).swap) =
            fun a b => compareKeys order.key b a := by
          funext a b
          exact Std.OrientedCmp.eq_swap.symm
        simp only [if_true, hopposite]
        exact Std.TransCmp.opposite
  exact inferInstanceAs (Std.TransCmp (compareLex _ (compareOn Workflow.id)))

/-- Sorting puts each workflow before those that come after it, if no two have the same number. -/
theorem sort_pairwise (order : SubmissionOrder) {workflows : List (Workflow α)}
    (hids : (workflows.map Workflow.id).Nodup) :
    (order.sort workflows).Pairwise order.Before := by
  have hsorted : (order.sort workflows).Pairwise fun a b => (order.compare a b).isLE = true :=
    pairwise_mergeSort_isLE workflows
  have hperm := workflows.mergeSort_perm fun a b => (order.compare a b).isLE
  have hdistinct : ((order.sort workflows).map Workflow.id).Nodup :=
    (hperm.map Workflow.id).nodup_iff.2 hids
  refine (hsorted.and (List.pairwise_map.1 hdistinct)).imp fun {a b} h => ?_
  obtain ⟨hle, hne⟩ := h
  rw [← compare_eq_lt_iff]
  rcases Ordering.isLE_iff_eq_lt_or_eq_eq.1 hle with hlt | heq
  · exact hlt
  · exact absurd (id_eq_of_compare_eq_eq heq) hne

/-- Two listings of workflows with numbers of their own are sorted to the same list. -/
theorem sort_eq_of_perm (order : SubmissionOrder) {workflows others : List (Workflow α)}
    (hperm : workflows.Perm others) (hids : (workflows.map Workflow.id).Nodup) :
    order.sort workflows = order.sort others := by
  have hids' : (others.map Workflow.id).Nodup := (hperm.map Workflow.id).nodup_iff.1 hids
  refine List.Perm.eq_of_pairwise (fun a b _ _ hab hba => ?_) (order.sort_pairwise hids)
    (order.sort_pairwise hids') ?_
  · rw [← compare_eq_lt_iff] at hab hba
    have hswap : order.compare b a = (order.compare a b).swap := Std.OrientedCmp.eq_swap
    rw [hab, hba] at hswap
    cases hswap
  · exact ((workflows.mergeSort_perm _).trans hperm).trans (others.mergeSort_perm _).symm

end SubmissionOrder

namespace Planner

variable {planner : Planner α}

/-- A plan bears the number of the workflow that it was made for. -/
theorem workflow_of_plan_eq_ok {workflow : Workflow α} {plan : Plan α}
    (h : (planner.plan workflow).result = .ok plan) : plan.workflow = workflow.id := by
  have hplan := planner.plan_answers workflow
  generalize planner.plan workflow = outcome at h hplan
  cases hplan with
  | empty | unmeasured | aborted | infeasible => cases h
  | committed =>
      cases h
      rfl

/-- Planning more workflows goes on with the planner that the earlier ones leave. -/
theorem planAll_append (planner : Planner α) (before rest : List (Workflow α)) :
    planner.planAll (before ++ rest) =
      (((planner.planAll before).1.planAll rest).1,
        (planner.planAll before).2 ++ ((planner.planAll before).1.planAll rest).2) := by
  induction before generalizing planner with
  | nil => rfl
  | cons workflow before ih =>
      rw [List.cons_append, planAll, ih]
      rfl

/-- Every workflow gets one answer, the failed ones included. -/
theorem length_planAll (planner : Planner α) (workflows : List (Workflow α)) :
    (planner.planAll workflows).2.length = workflows.length := by
  induction workflows generalizing planner with
  | nil => rfl
  | cons workflow rest ih => exact congrArg Nat.succ (ih _)

/-- The answer to a workflow is that of a call of the planner that the workflows before it leave. -/
theorem getElem?_planAll (planner : Planner α) (before : List (Workflow α)) (workflow : Workflow α)
    (rest : List (Workflow α)) :
    (planner.planAll (before ++ workflow :: rest)).2[before.length]? =
      some (((planner.planAll before).1.plan workflow).workflow,
        ((planner.planAll before).1.plan workflow).result) := by
  rw [planAll_append, ← planner.length_planAll before, List.getElem?_append_right le_rfl,
    Nat.sub_self]
  rfl

/-- A batch of workflows with numbers of their own comes to the same end in whatever order it is
listed: the same planner, the same order of the workflows and the same answers. The answers follow
the sorted workflows one by one, and each one is that of a call with its workflow, of the planner
that the workflows before it have left. The order tells any two such workflows apart, by key and by
ascending number where the keys are equal. -/
theorem planBatch_of_perm [Std.TransCmp (Scalar.totalOrder : α → α → Ordering)]
    (planner : Planner α) (order : SubmissionOrder) {workflows others : List (Workflow α)}
    (hperm : workflows.Perm others) (hids : (workflows.map Workflow.id).Nodup) :
    planner.planBatch order workflows = planner.planBatch order others ∧
    (∃ sorted : List (Workflow α), sorted.Perm workflows ∧ sorted.Pairwise order.Before ∧
      (planner.planBatch order workflows).1 = (planner.planAll sorted).1 ∧
      (planner.planBatch order workflows).2.length = sorted.length ∧
      ∀ before workflow rest, sorted = before ++ workflow :: rest → ∃ earlier answer,
        earlier = (planner.planAll before).1 ∧
        (planner.planBatch order workflows).2[before.length]? = some answer ∧
        answer = ((earlier.plan workflow).workflow, (earlier.plan workflow).result) ∧
        answer.1.unplanned = workflow.unplanned ∧
        ∀ plan, answer.2 = .ok plan → plan.workflow = workflow.id) ∧
    (∀ a b : Workflow α, order.compare b a = (order.compare a b).swap) ∧
    (∀ a b c : Workflow α, order.compare a b = .lt → order.compare b c = .lt →
      order.compare a c = .lt) ∧
    (∀ a b : Workflow α, a.id ≠ b.id → order.compare a b ≠ .eq) ∧
    ∀ a b : Workflow α, order.compare a b = .lt ↔ order.Before a b := by
  refine ⟨?_, ⟨order.sort workflows, workflows.mergeSort_perm _, order.sort_pairwise hids, rfl,
    planner.length_planAll _, fun before workflow rest hsplit => ?_⟩,
    fun a b => Std.OrientedCmp.eq_swap, fun a b c => Std.TransCmp.lt_trans,
    fun a b hne heq => hne (SubmissionOrder.id_eq_of_compare_eq_eq heq),
    order.compare_eq_lt_iff⟩
  · unfold planBatch
    rw [order.sort_eq_of_perm hperm hids]
  · rw [planBatch, hsplit]
    exact ⟨_, _, rfl, planner.getElem?_planAll before workflow rest, rfl,
      plan_unplanned _ workflow, fun plan => workflow_of_plan_eq_ok⟩

end Planner

namespace Chain

/-- The chain under another number. -/
def renumbered : Workflow (Exact ℚ) :=
  { workflow 4 with id := 3 }

theorem listed_either_way : [workflow 1, renumbered].Perm [renumbered, workflow 1] ∧
    ([workflow 1, renumbered].map Workflow.id).Nodup ∧
    planner.planBatch ⟨.length, true⟩ [workflow 1, renumbered] =
      planner.planBatch ⟨.length, true⟩ [renumbered, workflow 1] := by
  have hperm : [workflow 1, renumbered].Perm [renumbered, workflow 1] := .swap _ _ _
  have hids : ([workflow 1, renumbered].map Workflow.id).Nodup := by decide
  exact ⟨hperm, hids, (planner.planBatch_of_perm ⟨.length, true⟩ hperm hids).1⟩

end Chain

end WattPlan
