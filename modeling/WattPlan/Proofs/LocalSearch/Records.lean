import WattPlan.Proofs.LocalSearch.Attempts
import WattPlan.Proofs.Pass.Billing
import WattPlan.Proofs.Pass.Sweeps
import WattPlan.Proofs.WeakOrder

/-!
# What a search keeps and when it ends

The search compares a pass with the best one so far only. Over weakly ordered costs this is the same
as comparing it with every earlier pass that met the deadline and the goal: `Summary` says what the
progress of a search knows of its attempts, `Summary.advance` that a pass keeps it so, and
`Tries.summary` that a whole search does. `Tries.stops_iff` says after which pass a search ends.
`run_records` puts this together.
-/

namespace WattPlan

variable {α : Type} [Scalar α]

/-- The costs of the accepted passes in the order of the passes. -/
def Progress.acceptedCosts {α : Type} (progress : Progress α) : List α :=
  (progress.history.reverse.filter PassRecord.accepted).map PassRecord.cost

namespace LocalSearch

/-- A record tells what an attempt came to, after earlier attempts and the records of these. It is
accepted if it met the deadline and the goal and was cheaper than every earlier one that did. -/
structure Tells (problem : Problem α) (earlier : List (Attempt α)) (told : List (PassRecord α))
    (attempt : Attempt α) (record : PassRecord α) : Prop where
  cost : record.cost = attempt.solution.cost
  finishTime : record.finishTime = attempt.solution.finishTime
  reliability : record.reliability = attempt.solution.reliability
  feasible : record.feasible = true ↔ attempt.Meets problem
  accepted : record.accepted = true ↔ attempt.Meets problem ∧
    ∀ other ∈ earlier, other.Meets problem → attempt.solution.cost < other.solution.cost
  stagnation : record.stagnation =
    if record.accepted then 0 else (told.getLast?.map PassRecord.stagnation).getD 0 + 1

/-- A search ends after the pass of a number with a record. -/
def Stops (search : LocalSearch α) (number : Nat) (record : PassRecord α) : Prop :=
  search.problem.profile.budget = .singlePass ∨ search.limit ≤ record.stagnation ∨
    passLimit ≤ number

/-- A solution with its order is the cheapest of the attempts that meet the deadline and the goal,
and the first one of its cost. -/
def Cheapest (problem : Problem α) (attempts : List (Attempt α)) (solution : Solution α)
    (order : List JobId) : Prop :=
  ∃ before after, attempts = before ++ ⟨order, solution⟩ :: after ∧
    (Attempt.mk order solution).Meets problem ∧
    (∀ other ∈ before, other.Meets problem → solution.cost < other.solution.cost) ∧
    ∀ other ∈ after, other.Meets problem → ¬ other.solution.cost < solution.cost

/-- What the progress of a search knows of the attempts so far. -/
structure Summary (problem : Problem α) (attempts : List (Attempt α)) (progress : Progress α) :
    Prop where
  length : progress.history.length = attempts.length
  stagnation : progress.stagnation =
    (progress.history.reverse.getLast?.map PassRecord.stagnation).getD 0
  tells : ∀ (place : Nat) (attempt : Attempt α) (record : PassRecord α),
    attempts[place]? = some attempt → progress.history.reverse[place]? = some record →
      Tells problem (attempts.take place) (progress.history.reverse.take place) attempt record
  decreasing : progress.acceptedCosts.Pairwise fun earlier later => later < earlier
  accepted : ∀ cost ∈ progress.acceptedCosts,
    ∃ attempt ∈ attempts, attempt.Meets problem ∧ attempt.solution.cost = cost
  unmet : progress.best = none → ∀ attempt ∈ attempts, ¬ attempt.Meets problem
  best : ∀ solution order, progress.best = some (solution, order) →
    Cheapest problem attempts solution order ∧
      progress.acceptedCosts.getLast? = some solution.cost

variable {search : LocalSearch α} {problem : Problem α} {progress last : Progress α}
  {solution : Solution α} {order : List JobId} {generator following : Generator}
  {attempts earlier : List (Attempt α)} {more : Nat}

/-- Before the first attempt nothing is known. -/
theorem Summary.start (problem : Problem α) : Summary problem [] ⟨none, [], 0⟩ := by
  constructor <;> simp [Progress.acceptedCosts]

/-- The record of a pass. -/
def recordOf (problem : Problem α) (progress : Progress α) (solution : Solution α) : PassRecord α :=
  let accepted := isFeasible problem solution &&
    progress.best.all fun (best, _) => decide (solution.cost < best.cost)
  { cost := solution.cost
    finishTime := solution.finishTime
    reliability := solution.reliability
    feasible := isFeasible problem solution
    accepted
    stagnation := if accepted then 0 else progress.stagnation + 1 }

/-- A pass is accepted with its order as the best one, or leaves the best one as it was. -/
theorem advance_eq (problem : Problem α) (progress : Progress α) (order : List JobId)
    (solution : Solution α) :
    advance problem progress order solution =
      ⟨if (recordOf problem progress solution).accepted then some (solution, order)
        else progress.best,
        recordOf problem progress solution :: progress.history,
        (recordOf problem progress solution).stagnation⟩ :=
  rfl

/-- The costs of the accepted passes after one more pass. -/
theorem acceptedCosts_advance (problem : Problem α) (progress : Progress α) (order : List JobId)
    (solution : Solution α) :
    (advance problem progress order solution).acceptedCosts = progress.acceptedCosts ++
      if (recordOf problem progress solution).accepted then [solution.cost] else [] := by
  rw [advance_eq, Progress.acceptedCosts, List.reverse_cons, List.filter_append, List.map_append]
  cases haccepted : (recordOf problem progress solution).accepted with
  | true =>
      rw [List.filter_cons_of_pos haccepted]
      rfl
  | false =>
      rw [List.filter_cons_of_neg (by simp [haccepted])]
      rfl

/-- A further attempt leaves the cheapest one if it does not meet the deadline and the goal or is
not cheaper. -/
theorem Cheapest.snoc (h : Cheapest problem attempts solution order) {attempt : Attempt α}
    (hattempt : attempt.Meets problem → ¬ attempt.solution.cost < solution.cost) :
    Cheapest problem (attempts ++ [attempt]) solution order := by
  obtain ⟨before, after, rfl, hmeets, hbefore, hafter⟩ := h
  refine ⟨before, after ++ [attempt], by simp, hmeets, hbefore, fun other hother => ?_⟩
  rcases List.mem_append.1 hother with hother | hother
  · exact hafter other hother
  · rw [List.mem_singleton.1 hother]
    exact hattempt

/-- The search stops after a pass just when it is over then or the pass was the last one allowed. -/
theorem stops_recordOf_iff (order : List JobId) {number : Nat} :
    search.Stops number (recordOf search.problem progress solution) ↔
      search.isOver (advance search.problem progress order solution) = true ∨
        passLimit ≤ number := by
  rw [Stops, isOver, Bool.or_eq_true, decide_eq_true_iff, decide_eq_true_iff, or_assoc]
  exact Iff.rfl

section Costs

variable [Scalar.WeaklyOrdered α]

/-- No attempt that meets the deadline and the goal is cheaper than the cheapest one. -/
theorem Cheapest.not_lt (h : Cheapest problem attempts solution order) :
    ∀ other ∈ attempts, other.Meets problem → ¬ other.solution.cost < solution.cost := by
  obtain ⟨before, after, rfl, -, hbefore, hafter⟩ := h
  intro other hother hmeets
  rcases List.mem_append.1 hother with hother | hother
  · exact Scalar.WeaklyOrdered.lt_asymm (hbefore other hother hmeets)
  · rcases List.mem_cons.1 hother with rfl | hother
    · exact Scalar.WeaklyOrdered.lt_irrefl _
    · exact hafter other hother hmeets

/-- A pass is cheaper than the best one just when it is cheaper than every attempt that met the
deadline and the goal. -/
theorem Summary.cheaper_iff (h : Summary problem attempts progress)
    (hdefined : ∀ attempt ∈ attempts, Scalar.isNaN attempt.solution.cost = false)
    (solution : Solution α) :
    (progress.best.all fun (best, _) => decide (solution.cost < best.cost)) = true ↔
      ∀ other ∈ attempts, other.Meets problem → solution.cost < other.solution.cost := by
  cases hbest : progress.best with
  | none => simpa using fun other hother hmeets => absurd hmeets (h.unmet hbest other hother)
  | some best =>
      obtain ⟨best, order⟩ := best
      obtain ⟨hcheapest, -⟩ := h.best best order hbest
      rw [Option.all_some, decide_eq_true_iff]
      constructor
      · -- What is cheaper than the best one is cheaper than what the best one is not dearer than.
        intro hlt other hother hmeets
        exact (Scalar.WeaklyOrdered.lt_or_lt (hdefined other hother) hlt).resolve_right
          (hcheapest.not_lt other hother hmeets)
      · intro hall
        obtain ⟨before, after, rfl, hmeets, -⟩ := hcheapest
        exact hall ⟨order, best⟩ (by simp) hmeets

/-- The record of a pass tells what it came to. -/
theorem Summary.tells_recordOf (h : Summary problem attempts progress)
    (hdefined : ∀ attempt ∈ attempts, Scalar.isNaN attempt.solution.cost = false)
    (order : List JobId) (solution : Solution α) :
    Tells problem attempts progress.history.reverse ⟨order, solution⟩
      (recordOf problem progress solution) where
  cost := rfl
  finishTime := rfl
  reliability := rfl
  feasible := isFeasible_iff
  accepted := by
    rw [← h.cheaper_iff hdefined solution, ← isFeasible_iff, ← Bool.and_eq_true]
    rfl
  stagnation := by
    rw [← h.stagnation]
    rfl

/-- A pass keeps what the progress of a search knows. -/
theorem Summary.advance (h : Summary problem attempts progress)
    (hdefined : ∀ attempt ∈ attempts, Scalar.isNaN attempt.solution.cost = false)
    (order : List JobId) (solution : Solution α) :
    Summary problem (attempts ++ [⟨order, solution⟩])
      (advance problem progress order solution) := by
  have htells := h.tells_recordOf hdefined order solution
  have hcosts := acceptedCosts_advance problem progress order solution
  have hhistory : (LocalSearch.advance problem progress order solution).history.reverse =
      progress.history.reverse ++ [recordOf problem progress solution] :=
    List.reverse_cons
  constructor
  case length => simp [advance_eq, h.length]
  case stagnation =>
    rw [hhistory, List.getLast?_concat]
    rfl
  case tells =>
    intro place attempt record hattempt hrecord
    rw [hhistory] at hrecord ⊢
    have hreverse : progress.history.reverse.length = attempts.length := by
      rw [List.length_reverse, h.length]
    rcases Nat.lt_or_ge place attempts.length with hlt | hge
    · rw [List.getElem?_append_left hlt] at hattempt
      rw [List.getElem?_append_left (by rwa [hreverse])] at hrecord
      rw [List.take_append_of_le_length hlt.le,
        List.take_append_of_le_length (by rw [hreverse]; exact hlt.le)]
      exact h.tells place attempt record hattempt hrecord
    · -- The record behind those that were there is that of the pass.
      obtain rfl : place = attempts.length := by
        have hplace := (List.getElem?_eq_some_iff.1 hattempt).1
        rw [List.length_append, List.length_singleton] at hplace
        exact Nat.le_antisymm (Nat.le_of_lt_succ hplace) hge
      rw [List.getElem?_concat_length] at hattempt
      rw [← hreverse, List.getElem?_concat_length] at hrecord
      rw [List.take_left, List.take_left' hreverse, ← Option.some.inj hattempt,
        ← Option.some.inj hrecord]
      exact htells
  case decreasing =>
    rw [hcosts, List.pairwise_append]
    refine ⟨h.decreasing, by split <;> simp, fun earlier hearlier later hlater => ?_⟩
    split at hlater
    · rename_i haccepted
      obtain ⟨other, hother, hmeets, rfl⟩ := h.accepted earlier hearlier
      rw [List.mem_singleton.1 hlater]
      exact (htells.accepted.1 haccepted).2 other hother hmeets
    · cases hlater
  case accepted =>
    rw [hcosts, List.forall_mem_append]
    constructor
    · intro cost hcost
      obtain ⟨attempt, hattempt, hmeets⟩ := h.accepted cost hcost
      exact ⟨attempt, List.mem_append_left _ hattempt, hmeets⟩
    · intro cost hcost
      split at hcost
      · rename_i haccepted
        rw [List.mem_singleton.1 hcost]
        exact ⟨_, List.mem_concat_self, (htells.accepted.1 haccepted).1, rfl⟩
      · cases hcost
  case unmet =>
    rw [advance_best_eq_none, List.forall_mem_append, List.forall_mem_singleton, ← isFeasible_iff,
      Bool.not_eq_true]
    exact fun hnone => ⟨h.unmet hnone.1, hnone.2⟩
  case best =>
    intro best bestOrder hbest
    rw [advance_eq] at hbest
    cases haccepted : (recordOf problem progress solution).accepted with
    | true =>
        rw [haccepted] at hbest hcosts
        cases hbest
        obtain ⟨hmeets, hcheaper⟩ := htells.accepted.1 haccepted
        refine ⟨⟨attempts, [], rfl, hmeets, hcheaper, by simp⟩, ?_⟩
        rw [hcosts]
        exact List.getLast?_concat
    | false =>
        rw [haccepted] at hbest hcosts
        have hbest : progress.best = some (best, bestOrder) := hbest
        obtain ⟨hcheapest, hlast⟩ := h.best best bestOrder hbest
        rw [hcosts]
        refine ⟨hcheapest.snoc fun hmeets hlt => ?_, by simpa using hlast⟩
        -- The pass would have been accepted.
        have hcheaper := (h.cheaper_iff hdefined solution).1 (by simpa [hbest] using hlt)
        rw [htells.accepted.2 ⟨hmeets, hcheaper⟩] at haccepted
        cases haccepted

/-- What the progress of a search knows of its attempts is kept until the search ends. -/
theorem Tries.summary (h : search.Tries more progress order generator attempts last)
    (hbefore : Summary search.problem earlier progress)
    (hdefined : ∀ attempt ∈ earlier ++ attempts, Scalar.isNaN attempt.solution.cost = false) :
    Summary search.problem (earlier ++ attempts) last := by
  induction h generalizing earlier with
  | last more progress order generator following solution hrun hover =>
      rw [List.forall_mem_append] at hdefined
      exact hbefore.advance hdefined.1 order solution
  | next more progress order generator following solution base attempts last hrun hgoing hbase _
      ih =>
      rw [List.append_cons] at hdefined ⊢
      have hthis := (List.forall_mem_append.1 (List.forall_mem_append.1 hdefined).1).1
      exact ih (hbefore.advance hthis order solution) hdefined

end Costs

namespace Tries

/-- Every attempt of a search is a pass over its order from the timelines of the search. -/
theorem run_of_mem (h : search.Tries more progress order generator attempts last) :
    ∀ attempt ∈ attempts, ∃ generator following,
      (Pass.run search.problem search.timelines attempt.order).run generator =
        (.ok attempt.solution, following) := by
  induction h with
  | last more progress order generator following solution hrun hover =>
      rw [List.forall_mem_singleton]
      exact ⟨generator, following, hrun⟩
  | next more progress order generator following solution base attempts last hrun hgoing hbase _
      ih =>
      rw [List.forall_mem_cons]
      exact ⟨⟨generator, following, hrun⟩, ih⟩

/-- A search adds one record for each attempt. -/
theorem history_eq (h : search.Tries more progress order generator attempts last) :
    ∃ records, last.history.reverse = progress.history.reverse ++ records ∧
      records.length = attempts.length := by
  induction h with
  | last more progress order generator following solution hrun hover =>
      exact ⟨[recordOf search.problem progress solution], List.reverse_cons, rfl⟩
  | next more progress order generator following solution base attempts last hrun hgoing hbase _
      ih =>
      obtain ⟨records, hrecords, hlength⟩ := ih
      refine ⟨recordOf search.problem progress solution :: records, ?_, by simp [hlength]⟩
      rw [hrecords, List.append_cons]
      exact congrArg (· ++ records) List.reverse_cons

/-- A search makes no more attempts than are allowed. -/
theorem length_le (h : search.Tries more progress order generator attempts last) :
    attempts.length ≤ more + 1 := by
  induction h with
  | last => exact Nat.le_add_left 1 _
  | next _ _ _ _ _ _ _ _ _ _ _ _ _ ih => exact Nat.succ_le_succ ih

/-- A search ends after the first pass after which it stops. -/
theorem stops_iff (h : search.Tries more progress order generator attempts last)
    (hlimit : progress.history.length + more + 1 = passLimit) {place : Nat} {record : PassRecord α}
    (hplace : progress.history.length ≤ place)
    (hrecord : last.history.reverse[place]? = some record) :
    search.Stops (place + 1) record ↔ place + 1 = last.history.length := by
  induction h generalizing place with
  | last more progress order generator following solution hrun hover =>
      have hlt := (List.getElem?_eq_some_iff.1 hrecord).1
      rw [advance_eq, List.length_reverse, List.length_cons] at hlt
      obtain rfl : place = progress.history.length := by omega
      have hfirst : recordOf search.problem progress solution = record := by
        simpa [advance_eq] using hrecord
      rw [← hfirst, stops_recordOf_iff order, advance_eq, List.length_cons]
      exact iff_of_true (hover.symm.imp_right fun hnone => by omega) rfl
  | next more progress order generator following solution base attempts last hrun hgoing hbase
      htail ih =>
      rcases Nat.eq_or_lt_of_le hplace with rfl | hlt
      · -- After the next pass the search goes on, and there is at least one more record.
        obtain ⟨records, hrecords, hlength⟩ := htail.history_eq
        have hmore := List.length_pos_iff.2 htail.ne_nil
        have hcount := congrArg List.length hrecords
        simp only [advance_eq, List.reverse_cons, List.length_append, List.length_reverse,
          List.length_singleton] at hcount
        have hfirst : recordOf search.problem progress solution = record := by
          simpa [hrecords, advance_eq] using hrecord
        rw [← hfirst, stops_recordOf_iff order, hgoing]
        refine iff_of_false ?_ (by omega)
        rintro (hfalse | hlimited)
        · cases hfalse
        · omega
      · refine ih ?_ hlt hrecord
        rw [← hlimit, advance_eq, List.length_cons]
        omega

end Tries

/-- Where all requests are priced, every pass of a search from an order of all jobs of a drafted
workflow returns, and the search ends after the first pass after which it stops. It has a best
solution just when a pass met the deadline and the goal. If no cost is
undefined, then a pass is accepted just when it did so and was cheaper than every earlier one that
did, the costs of accepted passes decrease, and the best solution is the first of the cheapest. -/
theorem run_records [Scalar.WeaklyOrdered α] (search : LocalSearch α)
    (hworkflow : search.problem.workflow.Drafted)
    (hinitial : search.initial.Perm search.problem.workflow.jobIds)
    (hpriced : search.problem.Priced search.timelines) (generator : Generator) :
    ∃ attempts last following, search.run.run generator = (.ok last, following) ∧
      search.Tries (passLimit - 1) ⟨none, [], 0⟩ search.initial generator attempts last ∧
      1 ≤ attempts.length ∧ attempts.length ≤ passLimit ∧
      (∀ attempt ∈ attempts, ∃ generator following,
        Pass.Returns search.problem search.timelines attempt.order generator attempt.solution
          following) ∧
      last.history.length = attempts.length ∧
      (∀ place record, last.history.reverse[place]? = some record →
        (search.Stops (place + 1) record ↔ place + 1 = attempts.length)) ∧
      (last.best = none ↔ ∀ attempt ∈ attempts, ¬ attempt.Meets search.problem) ∧
      ((∀ attempt ∈ attempts, Scalar.isNaN attempt.solution.cost = false) →
        (∀ place attempt record, attempts[place]? = some attempt →
          last.history.reverse[place]? = some record →
            Tells search.problem (attempts.take place) (last.history.reverse.take place) attempt
              record) ∧
        (last.acceptedCosts.Pairwise fun earlier later => later < earlier) ∧
        ∀ solution order, last.best = some (solution, order) →
          Cheapest search.problem attempts solution order ∧
            last.acceptedCosts.getLast? = some solution.cost) := by
  have hordered : search.Ordered ⟨none, [], 0⟩ := ⟨hinitial, by simp⟩
  obtain ⟨last, following, attempts, hrun, htries, -⟩ := search.continueFrom_ok hworkflow.arranged
    (passLimit - 1) hordered hinitial generator
  obtain ⟨records, hrecords, hcount⟩ := htries.history_eq
  have hlength : last.history.length = attempts.length := by
    rw [← List.length_reverse, hrecords, List.length_append, hcount]
    exact Nat.zero_add _
  have hlimit : passLimit - 1 + 1 = passLimit := Nat.sub_add_cancel (by decide)
  have hmost := htries.length_le
  rw [hlimit] at hmost
  have hreturns : ∀ attempt ∈ attempts, ∃ generator following,
      Pass.Returns search.problem search.timelines attempt.order generator attempt.solution
        following := by
    intro attempt hattempt
    obtain ⟨before, after, hpass⟩ := htries.run_of_mem attempt hattempt
    exact ⟨before, after, Pass.returns_of_run hworkflow.arranged hpriced hpass⟩
  refine ⟨attempts, last, following, hrun, htries, List.length_pos_iff.2 htries.ne_nil, hmost,
    hreturns, hlength, fun place record hrecord => ?_, ?_, fun hdefined => ?_⟩
  · rw [htries.stops_iff (by rw [List.length_nil, Nat.zero_add, hlimit]) (Nat.zero_le _) hrecord,
      hlength]
  · rw [htries.best_eq_none_iff]
    exact and_iff_right rfl
  · have hsummary := htries.summary (Summary.start search.problem) hdefined
    exact ⟨hsummary.tells, hsummary.decreasing, hsummary.best⟩

end LocalSearch

namespace Fork

open Exact

/-- What the search for the fork starts from has exact times. -/
theorem problemOf_timed {metrics : Metrics (Exact ℚ)} (hfits : metrics.Fits workflow catalog) :
    (planner.problemOf workflow metrics).Timed :=
  ⟨catalog_drafted, workflow_drafted.arranged, workflow_drafted.measured, hfits, 5, rfl⟩

theorem search_records : workflow.Drafted ∧ ∃ metrics : Metrics (Exact ℚ),
    metrics.Fits workflow catalog ∧
    (planner.searchOf workflow metrics).initial.Perm workflow.jobIds ∧
    ∃ attempts last following,
      (planner.searchOf workflow metrics).run.run planner.generator = (.ok last, following) ∧
      attempts ≠ [] ∧ (∀ attempt ∈ attempts, Scalar.isNaN attempt.solution.cost = false) ∧
      (∀ (place : Nat) (attempt : LocalSearch.Attempt (Exact ℚ)) (record : PassRecord (Exact ℚ)),
        attempts[place]? = some attempt → last.history.reverse[place]? = some record →
          LocalSearch.Tells (planner.problemOf workflow metrics) (attempts.take place)
            (last.history.reverse.take place) attempt record) ∧
      (last.acceptedCosts.Pairwise fun earlier later => later < earlier) ∧
      ∀ solution order, last.best = some (solution, order) →
        LocalSearch.Cheapest (planner.problemOf workflow metrics) attempts solution order ∧
          last.acceptedCosts.getLast? = some solution.cost := by
  obtain ⟨metrics, -, hfits⟩ := Metrics.ofWorkflow_eq_ok workflow_drafted.arranged catalog
    .siteAggregated .mean
  have hinitial := workflow.initialOrder_perm metrics planner.profile.priority
  obtain ⟨attempts, last, following, hrun, htries, -, -, hpasses, -, -, -, hdefined⟩ :=
    (planner.searchOf workflow metrics).run_records workflow_drafted hinitial
      (Problem.priced _ planner.timelines) planner.generator
  have hcosts : ∀ attempt ∈ attempts, Scalar.isNaN attempt.solution.cost = false := by
    intro attempt hattempt
    obtain ⟨before, after, hpass⟩ := hpasses attempt hattempt
    obtain ⟨cost, hcost⟩ := (Pass.solves_of_run workflow_drafted.arranged hpass.run).cost_finite
      (problemOf_timed hfits) (Timelines.sound_idle catalog.nodes.length)
    rw [hcost]
    rfl
  exact ⟨workflow_drafted, metrics, hfits, hinitial, attempts, last, following, hrun,
    htries.ne_nil, hcosts, hdefined hcosts⟩

end Fork

namespace LongRun

/-- A search for the long job tries at least one order, and no pass over it returns. -/
theorem search_never_returns : workflow.Drafted ∧ ∃ metrics : Metrics Float,
    metrics.Fits workflow catalog ∧
    ((planner .ecwsd).searchOf workflow metrics).initial.Perm workflow.jobIds ∧
    ∀ generator attempts last,
      ((planner .ecwsd).searchOf workflow metrics).Tries (LocalSearch.passLimit - 1) ⟨none, [], 0⟩
        ((planner .ecwsd).searchOf workflow metrics).initial generator attempts last →
      attempts ≠ [] ∧ ∀ attempt ∈ attempts, ∀ before after,
        ¬ Pass.Returns ((planner .ecwsd).problemOf workflow metrics) (planner .ecwsd).timelines
          attempt.order before attempt.solution after := by
  obtain ⟨metrics, -, hfits⟩ := Metrics.ofWorkflow_eq_ok workflow_drafted.arranged catalog
    .siteAggregated .mean
  have hinitial := workflow.initialOrder_perm metrics (planner .ecwsd).profile.priority
  exact ⟨workflow_drafted, metrics, hfits, hinitial,
    fun _ _ _ htries => ⟨htries.ne_nil, fun _ _ _ _ => not_returns rfl rfl hfits⟩⟩

end LongRun

end WattPlan
