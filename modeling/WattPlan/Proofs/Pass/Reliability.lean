import WattPlan.Proofs.Pass.Completion
import WattPlan.Proofs.Pass.Timing

/-!
# The reliability of a pass

The reliability of a pass is the product of those of its placements, and these are the reliabilities
of levels. What holds of 1 and of the levels and is kept by products thus holds of every pass that
is reached (`Pass.Reached.reliability_of_levels`). On a drafted catalog the reliability of a level
is a value of the exponential (`Catalog.Drafted.reliability_eq`), that at 0 if the level never
fails.
-/

namespace WattPlan

open Exact

variable {K : Type} [Field K] [LinearOrder K] [FloorRing K] [Exponentials K]

section Levels

variable {catalog : Catalog (Exact K)} {workflow : Workflow (Exact K)} {job : Job (Exact K)}
  {node : Node (Exact K)} {level : PowerLevel (Exact K)}

/-- The reliability of a job at a level is the exponential of the failures to expect, negated. -/
theorem Catalog.Drafted.reliability_eq (h : catalog.Drafted) (hmeasured : workflow.Measured)
    (hjob : job ∈ workflow.jobs) (hnode : node ∈ catalog.nodes) (hlevel : level ∈ node.levels) :
    ∃ rate time, level.failureRate = finite rate ∧ level.execTime job.length = finite time ∧
      level.reliability job.length = finite (Exponentials.exp (-rate * time)) := by
  have hfault := h.level hnode hlevel
  obtain ⟨x, hlength, -⟩ := isAmount_iff.1 (hmeasured job hjob).1
  obtain ⟨rate, hrate, -⟩ := PowerLevel.failureRate_nonneg hfault
  refine ⟨rate, level.duration x, hrate, ?_, ?_⟩
  · rw [hlength, PowerLevel.execTime_eq hfault]
  · rw [hlength, PowerLevel.reliability_eq hfault, hrate, value]

end Levels

/-- The reliabilities of the jobs at the levels of all nodes are numbers with a property. -/
def Problem.LevelsHave (problem : Problem (Exact K)) (P : K → Prop) : Prop :=
  ∀ node ∈ problem.catalog.nodes, ∀ level ∈ node.levels, ∀ job ∈ problem.workflow.jobs,
    ∃ x, level.reliability job.length = finite x ∧ P x

namespace Pass

/-- A further placement makes the reliability of a pass the product with its own. -/
theorem reliability_extend {α : Type} [Scalar α] (pass : Pass α) (workflow : WorkflowId)
    (placement : Placement α) :
    (pass.extend workflow placement).reliability = pass.reliability * placement.reliability := by
  simp [extend, reliability, List.foldl_append]

variable {problem : Problem (Exact K)} {pass : Pass (Exact K)} {timelines : Timelines (Exact K)}
  {job : Job (Exact K)} {request : Request (Exact K)} {candidate : Candidate (Exact K)}
  {solution : Solution (Exact K)} {P : K → Prop}

/-- What holds of the reliabilities of all levels holds of that of an offered candidate. -/
theorem Asks.reliability_of_levels (h : pass.Asks problem job request)
    (hjob : job ∈ problem.workflow.jobs) (hlevels : problem.LevelsHave P)
    (hoffers : request.Offers candidate) : ∃ x, candidate.reliability = finite x ∧ P x := by
  obtain ⟨node, hnode, level, hlevel, place, rfl⟩ := h.exists_evaluate hoffers
  rw [← h.job_eq] at hjob
  exact hlevels node hnode level hlevel request.job hjob

/-- What holds of 1 and of the reliabilities of all levels and is kept by products holds of the
reliability of a pass. -/
theorem Reached.reliability_of_levels (h : Reached problem timelines pass) (hone : P 1)
    (hmul : ∀ x y, P x → P y → P (x * y)) (hlevels : problem.LevelsHave P) :
    ∃ x, pass.reliability = finite x ∧ P x := by
  refine h.preserves (P := fun pass => ∃ x, pass.reliability = finite x ∧ P x)
    ⟨1, one_eq, hone⟩ ?_
  rintro pass job request candidate - ⟨x, hx, hholds⟩ hjob - hrequest hoffers
  obtain ⟨hasks, -⟩ := asks_of_request hrequest
  obtain ⟨y, hy, hlevel⟩ := hasks.reliability_of_levels hjob hlevels hoffers
  refine ⟨x * y, ?_, hmul x y hholds hlevel⟩
  rw [reliability_extend, hx, ← mul_finite, ← hy]

/-- What holds of the reliability of every pass of that kind holds of that of a solution. -/
theorem Solves.reliability_of_levels (h : Solves problem timelines solution) (hone : P 1)
    (hmul : ∀ x y, P x → P y → P (x * y)) (hlevels : problem.LevelsHave P) :
    ∃ x, solution.reliability = finite x ∧ P x := by
  obtain ⟨pass, placements, hreached, -, rfl⟩ := h.exists_pass
  exact hreached.reliability_of_levels hone hmul hlevels

end Pass

end WattPlan
