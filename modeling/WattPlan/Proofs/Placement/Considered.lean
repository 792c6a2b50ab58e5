import WattPlan.Proofs.EarliestFit
import WattPlan.Proofs.Placement.Feasible

/-!
# A node that is considered for a job

When the inputs of a job are on a node of a drafted catalog at an instant, the node has a candidate
for each of its levels, from fast to slow. They start and finish at instants, too, so a candidate is
feasible just when it does not miss the sub-deadline or the sub-goal
(`Considers.feasible_iff_admits`), and none of them finishes before one at a faster level
(`Considers.finishes_pairwise`).
-/

namespace WattPlan

open Exact

variable {K : Type} [Field K] [LinearOrder K] [FloorRing K] [Exponentials K]

/-- Where a condition that fails goes on failing, the members before the first failure are all that
meet it. -/
theorem takeWhile_eq_filter {β : Type} {p : β → Bool} {xs : List β}
    (h : xs.Pairwise fun a b => p b = true → p a = true) : xs.takeWhile p = xs.filter p := by
  induction xs with
  | nil => rfl
  | cons x xs ih =>
      rw [List.pairwise_cons] at h
      by_cases hx : p x = true
      · rw [List.takeWhile_cons_of_pos hx, List.filter_cons_of_pos hx, ih h.2]
      · have hrest : xs.filter p = [] :=
          List.filter_eq_nil_iff.2 fun y hy hholds => hx (h.1 y hy hholds)
        rw [List.takeWhile_cons_of_neg hx, List.filter_cons_of_neg hx, hrest]

/-- What holds of each two members of a list in their order holds of them with their places. -/
theorem pairwise_zipIdx {β : Type} {R : β → β → Prop} {xs : List β} (h : xs.Pairwise R) (k : Nat) :
    (xs.zipIdx k).Pairwise fun a b => R a.1 b.1 := by
  rwa [← List.zipIdx_map_fst k xs, List.pairwise_map] at h

namespace Request

/-- The candidates of a node at its power levels, from fast to slow. -/
def candidates {α : Type} [Scalar α] (request : Request α) (node : Node α) : List (Candidate α) :=
  node.levels.zipIdx.map (request.evaluate node (request.readyTime node))

/-- A node of a drafted catalog with finite windows is considered for a job of length `x` that has
all its inputs there at the instant `r`. The sub-deadline and the sub-goal may be without limit. -/
structure Considers (request : Request (Exact K)) (node : Node (Exact K)) (x r : K) : Prop where
  drafted : request.problem.catalog.Drafted
  listed : node ∈ request.problem.catalog.nodes
  windows : ∀ window ∈ (request.timelines.ofNode node.id).windows,
    window.start.IsFinite ∧ window.finish.IsFinite
  length : request.job.length = finite x
  nonneg : 0 ≤ x
  ready : request.readyTime node = finite r
  subDeadline : request.subDeadline ≠ undefined
  subGoal : request.subGoal ≠ undefined

namespace Considers

variable {request : Request (Exact K)} {node : Node (Exact K)} {x r : K}

/-- No level of the node breaks a rule. -/
theorem fault (h : request.Considers node x r) {level : PowerLevel (Exact K)}
    (hlevel : level ∈ node.levels) : level.fault? = none :=
  h.drafted.level h.listed hlevel

/-- The job takes the duration of a level. -/
theorem execTime_eq (h : request.Considers node x r) {level : PowerLevel (Exact K)}
    (hlevel : level ∈ node.levels) :
    level.execTime request.job.length = finite (level.duration x) := by
  rw [h.length, PowerLevel.execTime_eq (h.fault hlevel)]

/-- A candidate runs for the duration of its level from the start that is found for it. -/
theorem exists_start [IsStrictOrderedRing K] (h : request.Considers node x r)
    {level : PowerLevel (Exact K)} (hlevel : level ∈ node.levels) (place : Nat) :
    ∃ s, (request.timelines.ofNode node.id).probe (finite (level.duration x)) (finite r) =
        finite s ∧
      (request.evaluate node (request.readyTime node) (level, place)).start = finite s ∧
      (request.evaluate node (request.readyTime node) (level, place)).finish =
        finite (s + level.duration x) := by
  obtain ⟨s, -, hprobe, -⟩ := Timeline.probeFrom_mono_duration h.windows (le_refl (level.duration x))
    r 0
  rw [← zero_eq] at hprobe
  refine ⟨s, hprobe, ?_, ?_⟩
  · simp only [evaluate, h.execTime_eq hlevel, h.ready]
    exact hprobe
  · simp only [evaluate, h.execTime_eq hlevel, h.ready]
    exact congrArg (· + finite (level.duration x)) hprobe

/-- The reliability of a candidate is that of its level. -/
theorem reliability_eq (h : request.Considers node x r) {level : PowerLevel (Exact K)}
    (hlevel : level ∈ node.levels) (place : Nat) :
    (request.evaluate node (request.readyTime node) (level, place)).reliability =
      finite (Exponentials.exp (-level.failureRate.value * level.duration x)) := by
  rw [← PowerLevel.reliability_eq (h.fault hlevel), ← h.length]
  rfl

/-- A candidate is feasible just when it misses neither the sub-deadline nor the sub-goal. -/
theorem feasible_iff_admits [IsStrictOrderedRing K] (h : request.Considers node x r)
    {candidate : Candidate (Exact K)} (hcandidate : candidate ∈ request.candidates node) :
    request.feasible candidate = true ↔ request.Admits candidate := by
  obtain ⟨⟨level, place⟩, hchoice, rfl⟩ := List.mem_map.1 hcandidate
  have hlevel := List.fst_mem_of_mem_zipIdx hchoice
  obtain ⟨s, -, -, hfinish⟩ := h.exists_start hlevel place
  have hreliability := h.reliability_eq hlevel place
  rw [feasible, Admits, Bool.and_eq_true, decide_eq_true_iff, decide_eq_true_iff,
    Exact.not_lt_iff (by simp [hfinish]) h.subDeadline,
    Exact.not_lt_iff h.subGoal (by simp [hreliability])]

/-- What holds of each two levels of the node in their order holds of their candidates. -/
theorem candidates_pairwise {R : PowerLevel (Exact K) → PowerLevel (Exact K) → Prop}
    {S : Candidate (Exact K) → Candidate (Exact K) → Prop} (hlevels : node.levels.Pairwise R)
    (h : ∀ fast ∈ node.levels, ∀ slow ∈ node.levels, R fast slow → ∀ place place',
      S (request.evaluate node (request.readyTime node) (fast, place))
        (request.evaluate node (request.readyTime node) (slow, place'))) :
    (request.candidates node).Pairwise S := by
  rw [candidates, List.pairwise_map]
  refine (pairwise_zipIdx hlevels 0).imp_of_mem fun hfast hslow hrelated => ?_
  exact h _ (List.fst_mem_of_mem_zipIdx hfast) _ (List.fst_mem_of_mem_zipIdx hslow) hrelated _ _

/-- No candidate finishes before one at a faster level. -/
theorem finishes_pairwise [IsStrictOrderedRing K] (h : request.Considers node x r) :
    (request.candidates node).Pairwise fun fast slow => fast.finish ≤ slow.finish := by
  refine candidates_pairwise (h.drafted.speeds_pairwise h.listed) ?_
  intro fast hfast slow hslow hspeed place place'
  have hlength : Scalar.isAmount request.job.length = true :=
    isAmount_iff.2 ⟨x, h.length, h.nonneg⟩
  rw [h.ready]
  exact request.evaluate_finish_le h.windows hlength (h.fault hfast) (h.fault hslow) hspeed r _ _

end Considers

end Request

end WattPlan
