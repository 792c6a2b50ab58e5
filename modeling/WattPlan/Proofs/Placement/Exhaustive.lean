import Mathlib.Analysis.SpecialFunctions.Exp
import WattPlan.Proofs.Placement.Considered
import WattPlan.Proofs.Placement.Preference

/-!
# The exhaustive search of a node

An exhaustive search goes through the levels of a node from the fastest on and breaks off at the
first one that misses the sub-goal or the sub-deadline. Slower levels finish later, so none that
meets the sub-deadline is lost behind one that misses it. The failure rates of the levels are in no
order, though: a level behind one that misses the sub-goal may well meet it. So the search finds the
best feasible level among those before the first that misses the sub-goal, and the best one of the
node where the reliabilities do not increase from level to level (`tryNode_exhaustive`). A node where
they increase is in `TwoLevels.search_ends`.
-/

namespace WattPlan

open Exact

namespace Request

variable {K : Type} [Field K] [LinearOrder K] [FloorRing K] [Exponentials K]
  {request : Request (Exact K)} {node : Node (Exact K)} {x r : K}

/-- What is found is the best feasible one of some candidates, and nothing if none of them is
feasible. -/
structure IsBest (request : Request (Exact K)) (found : Option (Candidate (Exact K)))
    (candidates : List (Candidate (Exact K))) : Prop where
  none_iff : found = none ↔ ∀ candidate ∈ candidates, request.feasible candidate = false
  best : ∀ candidate ∈ found, candidate ∈ candidates ∧ request.feasible candidate = true ∧
    ∀ other ∈ candidates, request.feasible other = true →
      (request.objective.compare candidate other).isLE = true

/-- Keeping the better candidate again and again over the feasible ones comes to the best of
them. -/
theorem foldl_keepBetter_isBest (request : Request (Exact K))
    (candidates : List (Candidate (Exact K))) :
    request.IsBest
      (((candidates.filter request.feasible).map some).foldl request.objective.keepBetter none)
      candidates := by
  obtain ⟨-, hcovers⟩ := request.objective.foldl_keepBetter_covers none
    ((candidates.filter request.feasible).map some)
  have hmem : ∀ candidate ∈ ((candidates.filter request.feasible).map some).foldl
      request.objective.keepBetter none, candidate ∈ candidates.filter request.feasible := by
    refine request.objective.foldl_keepBetter_mem (by simp) ?_
    intro other hother candidate hcandidate
    obtain ⟨kept, hkept, rfl⟩ := List.mem_map.1 hother
    rwa [← Option.mem_some.1 hcandidate]
  constructor
  case none_iff =>
    constructor
    · intro hnone candidate hcandidate
      rw [hnone] at hcovers
      by_contra hfeasible
      rw [Bool.not_eq_false] at hfeasible
      have hmet : some candidate ∈ (candidates.filter request.feasible).map some :=
        List.mem_map_of_mem (List.mem_filter.2 ⟨hcandidate, hfeasible⟩)
      cases (hcovers _ hmet).eq_none
    · intro hnone
      rw [List.filter_eq_nil_iff.2 fun candidate hcandidate => by simp [hnone candidate hcandidate]]
      rfl
  case best =>
    intro candidate hcandidate
    obtain ⟨hlisted, hfeasible⟩ := List.mem_filter.1 (hmem candidate hcandidate)
    refine ⟨hlisted, hfeasible, fun other hother hholds => ?_⟩
    have hmet : some other ∈ (candidates.filter request.feasible).map some :=
      List.mem_map_of_mem (List.mem_filter.2 ⟨hother, hholds⟩)
    exact (hcovers _ hmet).isLE hcandidate rfl

/-- The candidates of a node up to the first that falls short of the sub-goal. -/
def reliableCandidates (request : Request (Exact K)) (node : Node (Exact K)) :
    List (Candidate (Exact K)) :=
  (request.candidates node).takeWhile fun candidate =>
    !decide (candidate.reliability < request.subGoal)

namespace Considers

/-- The candidates up to the first that misses a bound are the feasible ones among those up to the
first that falls short of the sub-goal. -/
theorem feasibleLevels_eq [IsStrictOrderedRing K] (h : request.Considers node x r) :
    request.feasibleLevels node (request.readyTime node) =
      (request.reliableCandidates node).filter request.feasible := by
  have hsplit : request.feasibleLevels node (request.readyTime node) =
      (request.reliableCandidates node).takeWhile fun candidate =>
        !decide (request.subDeadline < candidate.finish) := by
    rw [reliableCandidates, List.takeWhile_takeWhile, feasibleLevels, feasibleChoices_eq]
    simp only [candidates, Bool.decide_and, Bool.decide_eq_true, Bool.and_comm]
  have hfront : request.reliableCandidates node <+: request.candidates node :=
    List.takeWhile_prefix _
  -- A candidate that finishes in time comes after none that finishes too late.
  have hpairwise : (request.reliableCandidates node).Pairwise fun fast slow =>
      (!decide (request.subDeadline < slow.finish)) = true →
        (!decide (request.subDeadline < fast.finish)) = true := by
    refine (h.finishes_pairwise.sublist hfront.sublist).imp fun hle hslow => ?_
    simp only [Bool.not_eq_true', decide_eq_false_iff_not] at hslow ⊢
    exact fun hfast => hslow (Exact.lt_of_lt_of_le hfast hle)
  rw [hsplit, takeWhile_eq_filter hpairwise]
  refine List.filter_congr fun candidate hcandidate => ?_
  have hreliable : ¬ candidate.reliability < request.subGoal := by
    simpa using List.mem_takeWhile_imp hcandidate
  rw [Bool.eq_iff_iff, h.feasible_iff_admits (hfront.subset hcandidate), Admits,
    and_iff_left hreliable]
  simp

/-- Where the reliabilities do not increase, no candidate behind one that falls short of the
sub-goal is feasible. -/
theorem filter_reliableCandidates [IsStrictOrderedRing K] (h : request.Considers node x r)
    (hreliabilities : (request.candidates node).Pairwise fun fast slow =>
      slow.reliability ≤ fast.reliability) :
    (request.reliableCandidates node).filter request.feasible =
      (request.candidates node).filter request.feasible := by
  have hpairwise : (request.candidates node).Pairwise fun fast slow =>
      (!decide (slow.reliability < request.subGoal)) = true →
        (!decide (fast.reliability < request.subGoal)) = true := by
    refine hreliabilities.imp fun hle hslow => ?_
    simp only [Bool.not_eq_true', decide_eq_false_iff_not] at hslow ⊢
    exact fun hfast => hslow (Exact.lt_of_le_of_lt hle hfast)
  rw [reliableCandidates, takeWhile_eq_filter hpairwise, List.filter_filter]
  refine List.filter_congr fun candidate hcandidate => ?_
  rw [Bool.and_eq_left_iff_imp, h.feasible_iff_admits hcandidate]
  exact fun hadmits => by simpa using hadmits.2

end Considers

/-- An exhaustive search finds the best feasible candidate of a node up to the first one that falls
short of the sub-goal. That is the best one of all where the reliabilities do not increase from level
to level, as they do not where the failure rates do not decrease. -/
theorem tryNode_exhaustive [IsStrictOrderedRing K] (h : request.Considers node x r)
    (hsearch : request.problem.profile.levelSearch = .exhaustive) :
    request.IsBest (request.tryNode node) (request.reliableCandidates node) ∧
    ((request.candidates node).Pairwise (fun fast slow => slow.reliability ≤ fast.reliability) →
      request.IsBest (request.tryNode node) (request.candidates node)) ∧
    (Monotone (Exponentials.exp : K → K) →
      node.levels.Pairwise (fun fast slow => fast.failureRate ≤ slow.failureRate) →
      request.IsBest (request.tryNode node) (request.candidates node)) := by
  have hfound : request.tryNode node =
      (((request.reliableCandidates node).filter request.feasible).map some).foldl
        request.objective.keepBetter none := by
    rw [← h.feasibleLevels_eq]
    simp only [tryNode, hsearch]
  have hall : (request.candidates node).Pairwise
      (fun fast slow => slow.reliability ≤ fast.reliability) →
      request.IsBest (request.tryNode node) (request.candidates node) := by
    intro hreliabilities
    rw [hfound, h.filter_reliableCandidates hreliabilities]
    exact request.foldl_keepBetter_isBest _
  refine ⟨?_, hall, fun hexp hrates => hall ?_⟩
  · rw [hfound]
    exact request.foldl_keepBetter_isBest _
  have hboth := (h.drafted.speeds_pairwise h.listed).and hrates
  refine Considers.candidates_pairwise hboth ?_
  intro fast hfast slow hslow hlevels place place'
  have hle := PowerLevel.reliability_le hexp (h.fault hfast) (h.fault hslow) hlevels.1 hlevels.2
    h.nonneg
  rwa [← h.length] at hle

end Request

/-!
## Two levels

A node whose faster level fails once a second on average and whose slower one fails at a given rate,
and a job that takes one second at the faster level and three seconds at the slower one.
-/

namespace TwoLevels

/-- The exponential function of the real numbers. No power is computed here. -/
noncomputable scoped instance : Exponentials ℝ where
  exp := Real.exp
  pow x _ := x

def site : Site (Exact ℝ) :=
  ⟨0, "lab", ⟨[finite 1], List.cons_ne_nil _ _⟩⟩

def node (rate : ℝ) : Node (Exact ℝ) :=
  ⟨0, "board", site, ⟨finite 3, finite 5, finite 1⟩, [⟨finite 1, finite 3, finite rate⟩]⟩

def catalog (rate : ℝ) : Catalog (Exact ℝ) where
  sites := [site]
  nodes := [node rate]
  network := ⟨infinity, infinity⟩
  nonempty := List.cons_ne_nil _ _

def job : Job (Exact ℝ) :=
  ⟨0, "sort", finite 3, 0, [], [], [], [], [], none⟩

def workflow : Workflow (Exact ℝ) :=
  ⟨1, "single", finite 0, none, none, [job]⟩

/-- The node is idle, and the job has ten seconds and a sub-goal to reach. -/
def request (rate goal : ℝ) : Request (Exact ℝ) where
  problem :=
    { catalog := catalog rate
      workflow
      metrics := ⟨⟨finite 3, [[finite 0]], [finite 0], [[]]⟩, [finite 1], [finite 1], [finite 0]⟩
      deadlines := ⟨finite 0, finite 1, finite 10, [finite 10]⟩
      budget := ⟨finite goal, finite goal, 1⟩
      profile := Variant.reliabilityAware.profile
      beta := finite 0
      maxSiteRetries := 0
      siteWorth := [finite 0] }
  timelines := .idle 1
  job
  arrivals := []
  begin := finite 0
  subDeadline := finite 10
  subGoal := finite goal

variable {rate : ℝ}

theorem catalog_drafted (hrate : 0 ≤ rate) : (catalog rate).Drafted := by
  have hprice : Scalar.isAmount (finite 1 : Exact ℝ) = true :=
    isAmount_iff.2 ⟨1, rfl, zero_le_one⟩
  have htariff : Tariff.ofHourly [(finite 1 : Exact ℝ)] = .ok site.tariff := by
    simp [Tariff.ofHourly, Tariff.invalidPrice?, hprice, site]
  have hsite : CatalogDraft.empty.take (.site "lab" [finite 1]) =
      .ok ((⟨[site], []⟩ : CatalogDraft (Exact ℝ)), 0) := by
    rw [CatalogDraft.take, htariff]
    rfl
  have hfast : (⟨finite 3, finite 5, finite 1⟩ : PowerLevel (Exact ℝ)).fault? = none :=
    PowerLevel.fault?_eq_none_iff.2 ⟨3, 5, 1, rfl, by norm_num, by norm_num, by norm_num⟩
  have hslow : (⟨finite 1, finite 3, finite rate⟩ : PowerLevel (Exact ℝ)).fault? = none :=
    PowerLevel.fault?_eq_none_iff.2 ⟨1, 3, rate, rfl, by norm_num, by norm_num, hrate⟩
  have hlevels : CatalogDraft.checkLevels "board" (node rate).levels =
      .ok ((node rate).fastest, (node rate).slower) := by
    have hfault : PowerLevel.firstFault? (node rate).levels = none := by
      simp [PowerLevel.firstFault?, Node.levels, node, hfast, hslow]
    have hdescending : PowerLevel.descending (node rate).levels = true := by
      simp [PowerLevel.descending, Node.levels, node]
    unfold CatalogDraft.checkLevels
    simp only [Node.levels] at hfault hdescending ⊢
    simp only [hfault, hdescending, if_true]
  have hnode : (⟨[site], []⟩ : CatalogDraft (Exact ℝ)).take (.node "board" 0 (node rate).levels) =
      .ok (⟨[site], [node rate]⟩, 0) := by
    rw [CatalogDraft.take, CatalogDraft.addNode, hlevels]
    rfl
  exact ⟨⟨[site], [node rate]⟩, ⟨infinity, infinity⟩, infinity, infinity,
    .take _ _ _ _ (.take _ _ _ _ .empty hsite) hnode, rfl, rfl⟩

theorem considered (hrate : 0 ≤ rate) (goal : ℝ) :
    (request rate goal).Considers (node rate) 3 0 where
  drafted := catalog_drafted hrate
  listed := List.mem_cons_self
  windows := by simp [request, Timelines.ofNode, Timelines.idle, node, Timeline.idle]
  length := rfl
  nonneg := by norm_num
  ready := congrArg finite (add_zero 0)
  subDeadline := by simp [request]
  subGoal := by simp [request]

/-- The faster level takes one second and the slower one three. -/
theorem candidates_eq (hrate : 0 ≤ rate) (goal : ℝ) : ∃ fast slow : Candidate (Exact ℝ),
    (request rate goal).candidates (node rate) = [fast, slow] ∧
      fast.finish = finite 1 ∧ fast.reliability = finite (Real.exp (-1)) ∧
      slow.finish = finite 3 ∧ slow.reliability = finite (Real.exp (-rate * 3)) := by
  have h := considered hrate goal
  have hprobe : ∀ d : ℝ, ((request rate goal).timelines.ofNode (node rate).id).probe (finite d)
      (finite 0) = finite 0 := by
    intro d
    simp [request, Timelines.ofNode, Timelines.idle, node, Timeline.idle, Timeline.probe,
      Timeline.probeFrom, zero_eq]
  have hfinish : ∀ level ∈ (node rate).levels, ∀ place, ((request rate goal).evaluate (node rate)
      ((request rate goal).readyTime (node rate)) (level, place)).finish =
        finite (level.duration 3) := by
    intro level hlevel place
    obtain ⟨s, hstart, -, hfinish⟩ := h.exists_start hlevel place
    obtain rfl : 0 = s := Exact.finite.inj ((hprobe _).symm.trans hstart)
    rw [hfinish, zero_add]
  have hslow : (⟨finite 1, finite 3, finite rate⟩ : PowerLevel (Exact ℝ)) ∈ (node rate).levels :=
    List.mem_cons_of_mem _ List.mem_cons_self
  refine ⟨_, _, rfl, (hfinish _ List.mem_cons_self 0).trans ?_,
    (h.reliability_eq List.mem_cons_self 0).trans ?_, (hfinish _ hslow 1).trans ?_,
    (h.reliability_eq hslow 1).trans ?_⟩ <;>
  simp [PowerLevel.duration, node, value, Exponentials.exp]

/-- Where the slower level never fails, it is the only one to reach one half, but the faster one
comes first and ends the search. -/
theorem search_ends : (request 0 (1 / 2)).Considers (node 0) 3 0 ∧
    (request 0 (1 / 2)).problem.profile.levelSearch = .exhaustive ∧
    (request 0 (1 / 2)).tryNode (node 0) = none ∧
    ∃ candidate ∈ (request 0 (1 / 2)).candidates (node 0),
      (request 0 (1 / 2)).feasible candidate = true := by
  obtain ⟨fast, slow, hcandidates, -, hfast, hfinish, hslow⟩ := candidates_eq le_rfl (1 / 2)
  have hfails : fast.reliability < (request 0 (1 / 2)).subGoal := by
    have htwo : (2 : ℝ) < Real.exp 1 := by
      have := Real.add_one_lt_exp (one_ne_zero (α := ℝ))
      linarith
    rw [hfast, Real.exp_neg]
    exact lt_finite.2 (by rw [one_div]; exact inv_strictAnti₀ two_pos htwo)
  have hends : (request 0 (1 / 2)).feasibleLevels (node 0) ((request 0 (1 / 2)).readyTime (node 0)) =
      [] := by
    rw [Request.feasibleLevels, Request.feasibleChoices_eq]
    show List.takeWhile _ ((request 0 (1 / 2)).candidates (node 0)) = []
    rw [hcandidates]
    exact List.takeWhile_cons_of_neg (by simp only [decide_eq_true hfails, Bool.not_true,
      Bool.false_and, Bool.false_eq_true, not_false_eq_true])
  have hnone : (request 0 (1 / 2)).tryNode (node 0) = none := by
    show (List.map some ((request 0 (1 / 2)).feasibleLevels (node 0) _)).foldl _ none = none
    rw [hends]
    rfl
  refine ⟨considered le_rfl _, rfl, hnone, slow, ?_, ?_⟩
  · rw [hcandidates]
    exact List.mem_cons_of_mem _ List.mem_cons_self
  · rw [Request.feasible, hfinish, hslow]
    norm_num [request]

/-- Where the slower level fails as often as the faster one, the best of both is found. -/
theorem search_finds : (request 1 0).Considers (node 1) 3 0 ∧
    (request 1 0).problem.profile.levelSearch = .exhaustive ∧
    Monotone (Exponentials.exp : ℝ → ℝ) ∧
    ((node 1).levels.Pairwise fun fast slow => fast.failureRate ≤ slow.failureRate) ∧
    (request 1 0).IsBest ((request 1 0).tryNode (node 1)) ((request 1 0).candidates (node 1)) ∧
    (request 1 0).tryNode (node 1) ≠ none := by
  have hexp : Monotone (Exponentials.exp : ℝ → ℝ) := Real.exp_monotone
  have hrates : (node 1).levels.Pairwise fun fast slow => fast.failureRate ≤ slow.failureRate := by
    simp [Node.levels, node]
  obtain ⟨-, -, hbest⟩ := Request.tryNode_exhaustive (considered zero_le_one 0) rfl
  have hfinds := hbest hexp hrates
  refine ⟨considered zero_le_one 0, rfl, hexp, hrates, hfinds, fun hnone => ?_⟩
  obtain ⟨fast, slow, hcandidates, hfinish, hfast, -⟩ := candidates_eq zero_le_one 0
  have hfeasible : (request 1 0).feasible fast = true := by
    rw [Request.feasible, hfinish, hfast]
    simp [request, Real.exp_nonneg]
  rw [hfinds.none_iff.1 hnone fast (by simp [hcandidates])] at hfeasible
  cases hfeasible

end TwoLevels

end WattPlan
