import Mathlib.Data.List.TakeWhile
import WattPlan.Proofs.Exact
import WattPlan.Proofs.Placement.Offers

/-!
# Candidates that keep to the sub-deadline and the sub-goal

The candidates of nodes are checked in three ways: the fastest level and a slower one by `feasible`,
the levels of an exhaustive search one by one. Over exact quantities all of them keep to the
sub-deadline and the sub-goal (`tryNode_admitted`), so the search comes to such a candidate wherever
the sites give one (`search_admits`).
-/

namespace WattPlan

open Exact

variable {K : Type} [Field K] [LinearOrder K] [FloorRing K] [Exponentials K]

namespace Request

variable {request : Request (Exact K)} {candidate : Candidate (Exact K)}

/-- A candidate does not finish behind the sub-deadline and does not fall short of the sub-goal. -/
def Admits (request : Request (Exact K)) (candidate : Candidate (Exact K)) : Prop :=
  ¬ request.subDeadline < candidate.finish ∧ ¬ candidate.reliability < request.subGoal

/-- A feasible candidate keeps to the sub-deadline and the sub-goal. -/
theorem admits_of_feasible (h : request.feasible candidate = true) : request.Admits candidate := by
  rw [feasible, Bool.and_eq_true, decide_eq_true_iff, decide_eq_true_iff] at h
  exact ⟨Exact.not_lt_of_le h.1, Exact.not_lt_of_le h.2⟩

/-- Slowing a candidate down leaves it one that keeps to the sub-deadline and the sub-goal. -/
theorem relax_admitted (ready : Exact K) (h : request.Admits candidate) :
    request.Admits (request.relax ready candidate) := by
  unfold relax
  split
  · exact h
  · dsimp only
    split
    · rename_i hrelaxed
      rw [Bool.and_eq_true] at hrelaxed
      exact admits_of_feasible hrelaxed.2
    · exact h

/-- The candidate of a node keeps to the sub-deadline and the sub-goal. -/
theorem tryNode_admitted {node : Node (Exact K)} :
    ∀ candidate ∈ request.tryNode node, request.Admits candidate := by
  have hfastest : ∀ candidate ∈ (some (request.evaluateFastest node)).filter request.feasible,
      request.Admits candidate := fun candidate hcandidate =>
    admits_of_feasible (Option.mem_filter_iff.1 hcandidate).2
  unfold tryNode
  split
  case h_3 =>
    intro candidate hcandidate
    obtain ⟨fastest, hfast, rfl⟩ := Option.map_eq_some_iff.1 hcandidate
    exact relax_admitted _ (hfastest fastest hfast)
  case h_4 =>
    refine request.objective.foldl_keepBetter_mem (by simp) ?_
    intro other hother candidate hcandidate
    obtain ⟨level, hlevel, rfl⟩ := List.mem_map.1 hother
    obtain rfl := Option.mem_some.1 hcandidate
    rw [feasibleLevels, feasibleChoices_eq] at hlevel
    simpa [Admits, and_comm] using List.mem_takeWhile_imp hlevel
  all_goals exact hfastest

/-- Where the sites give a candidate, the search comes to one that keeps to the sub-deadline and the
sub-goal, unless the level is chosen by chance. -/
theorem search_admits {generator : Generator}
    (hlevel : request.problem.profile.levelSearch ≠ .random)
    (hfinds : (request.feasibleCandidate.run generator).1.isSome = true) :
    request.Admits (request.search.run generator).1 := by
  obtain ⟨candidate, hfound⟩ := Option.isSome_iff_exists.1 hfinds
  rw [search_run_of_found hlevel hfound]
  exact feasibleCandidate_yields (fun _ _ => tryNode_admitted) generator candidate hfound

end Request

end WattPlan
