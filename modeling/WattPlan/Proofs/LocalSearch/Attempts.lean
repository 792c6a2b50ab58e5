import WattPlan.LocalSearch
import WattPlan.Proofs.Pass.Completion

/-!
# The attempts of a search

`LocalSearch.Tries` lists the passes that a search runs, each with its order and its solution. In an
arranged workflow the search always comes to an end (`continueFrom_ok`), every order that it tries
is one of all jobs, and every attempt has a solution. It ends without a best solution just when no
attempt met the deadline and the goal (`Tries.best_eq_none_iff`); its best solution is that of an
attempt which did (`Tries.best_mem`).
-/

namespace WattPlan

open Draw

variable {α : Type} [Scalar α]

/-- The first order of a search is one of all jobs. -/
theorem Workflow.initialOrder_perm (workflow : Workflow α) (metrics : Metrics α)
    (key : PriorityKey) : (workflow.initialOrder metrics key).Perm workflow.jobIds :=
  (List.mergeSort_perm workflow.jobs _).map Job.id

namespace LocalSearch

/-- A pass that a search has run: the order it took and what it came to. -/
structure Attempt (α : Type) where
  order : List JobId
  solution : Solution α

/-- An attempt meets the deadline and the reliability goal of a problem. -/
def Attempt.Meets (attempt : Attempt α) (problem : Problem α) : Prop :=
  attempt.solution.finishTime ≤ problem.deadlines.deadline ∧
    problem.budget.goal ≤ attempt.solution.reliability

/-- Exchanging members of a group permutes an order. -/
theorem exchangeIn_yields {initial order : List JobId} (group : List JobId)
    (h : order.Perm initial) : Yields (exchangeIn order group) (List.Perm · initial) := by
  unfold exchangeIn
  split
  · exact Yields.pure h
  · refine Yields.bind Yields.trivial fun a _ => Yields.bind Yields.trivial fun drawn _ => ?_
    dsimp only
    split
    · exact Yields.pure ((Generator.swapAt_perm order _ _).trans h)
    · exact Yields.pure h

/-- A perturbed order is a permutation of the one before. -/
theorem perturb_yields (order : List JobId) (groups : List (List JobId)) (count : Nat) :
    Yields (perturb order groups count) (List.Perm · order) := by
  unfold perturb
  dsimp only
  split
  · exact Yields.pure (List.Perm.refl order)
  · exact Yields.bind Yields.trivial fun chosen _ =>
      Yields.foldlM (List.Perm.refl order) fun _ group h => exchangeIn_yields group h

variable {search : LocalSearch α} {problem : Problem α} {progress last : Progress α}
  {solution : Solution α} {order : List JobId} {generator : Generator}

/-- A solution is feasible just when it meets the deadline and the goal. -/
theorem isFeasible_iff : isFeasible problem solution = true ↔
    (Attempt.mk order solution).Meets problem := by
  simp [isFeasible, ReliabilityBudget.isMet, Attempt.Meets]

/-- The search has no best solution after a pass just when it had none and the pass was not
feasible. -/
theorem advance_best_eq_none : (advance problem progress order solution).best = none ↔
    progress.best = none ∧ isFeasible problem solution = false := by
  cases hbest : progress.best with
  | none => cases hfeasible : isFeasible problem solution <;> simp [advance, hbest, hfeasible]
  | some best =>
      by_cases hcheaper : solution.cost < best.1.cost
      · cases hfeasible : isFeasible problem solution <;> simp [advance, hbest, hfeasible, hcheaper]
      · cases hfeasible : isFeasible problem solution <;> simp [advance, hbest, hfeasible, hcheaper]

/-- The best solution after a pass is that of the pass, if it is feasible, or the one before. -/
theorem advance_best_mem {best : Solution α × List JobId}
    (h : (advance problem progress order solution).best = some best) :
    (best = (solution, order) ∧ isFeasible problem solution = true) ∨
      progress.best = some best := by
  dsimp only [advance] at h
  split at h
  · rename_i haccepted
    rw [Bool.and_eq_true] at haccepted
    exact .inl ⟨(Option.some.inj h).symm, haccepted.1⟩
  · exact .inr h

/-- The passes that a search runs from a generator, while `more` passes are allowed after the next
one, and the progress that they end in. -/
inductive Tries (search : LocalSearch α) :
    Nat → Progress α → List JobId → Generator → List (Attempt α) → Progress α → Prop where
  | last (more : Nat) (progress : Progress α) (order : List JobId) (generator following : Generator)
      (solution : Solution α) :
      (Pass.run search.problem search.timelines order).run generator = (.ok solution, following) →
      (more = 0 ∨ search.isOver (advance search.problem progress order solution) = true) →
      Tries search more progress order generator [⟨order, solution⟩]
        (advance search.problem progress order solution)
  | next (more : Nat) (progress : Progress α) (order : List JobId) (generator following : Generator)
      (solution : Solution α) (base : List JobId) (attempts : List (Attempt α))
      (last : Progress α) :
      (Pass.run search.problem search.timelines order).run generator = (.ok solution, following) →
      search.isOver (advance search.problem progress order solution) = false →
      base = ((advance search.problem progress order solution).best.map Prod.snd).getD
        search.initial →
      Tries search more (advance search.problem progress order solution)
        ((perturb base search.groups
          (advance search.problem progress order solution).stagnation).run following).1
        ((perturb base search.groups
          (advance search.problem progress order solution).stagnation).run following).2
        attempts last →
      Tries search (more + 1) progress order generator (⟨order, solution⟩ :: attempts) last

/-- The passes that a search runs from a generator. -/
def Attempts (search : LocalSearch α) (generator : Generator) (attempts : List (Attempt α)) :
    Prop :=
  ∃ last, search.Tries (passLimit - 1) ⟨none, [], 0⟩ search.initial generator attempts last

namespace Tries

variable {more : Nat} {attempts : List (Attempt α)}

/-- A search makes at least one attempt. -/
theorem ne_nil (h : search.Tries more progress order generator attempts last) : attempts ≠ [] := by
  cases h <;> simp

/-- A search of a single pass makes one attempt. -/
theorem of_singlePass (h : search.Tries more progress order generator attempts last)
    (hsingle : search.problem.profile.budget = .singlePass) :
    ∃ solution following, attempts = [⟨order, solution⟩] ∧
      (Pass.run search.problem search.timelines order).run generator =
        (.ok solution, following) := by
  cases h with
  | last _ _ _ _ following solution hrun => exact ⟨solution, following, rfl, hrun⟩
  | next _ _ _ _ _ _ _ _ _ _ hgoing => simp [isOver, hsingle] at hgoing

/-- The passes of a search are determined by the generator. -/
theorem unique (h : search.Tries more progress order generator attempts last)
    {others : List (Attempt α)} {end' : Progress α}
    (hother : search.Tries more progress order generator others end') :
    attempts = others ∧ last = end' := by
  induction h generalizing others end' with
  | last more progress order generator following solution hrun hover =>
      cases hother with
      | last more progress order generator following' solution' hrun' hover' =>
          obtain ⟨rfl, -⟩ := Trial.run_eq_ok_unique hrun hrun'
          exact ⟨rfl, rfl⟩
      | next more progress order generator following' solution' base rest last hrun' hgoing =>
          obtain ⟨rfl, -⟩ := Trial.run_eq_ok_unique hrun hrun'
          simp [hgoing] at hover
  | next more progress order generator following solution base rest last hrun hgoing hbase _ ih =>
      cases hother with
      | last _ progress order generator following' solution' hrun' hover' =>
          obtain ⟨rfl, -⟩ := Trial.run_eq_ok_unique hrun hrun'
          simp [hgoing] at hover'
      | next _ progress order generator following' solution' base' rest' last' hrun' _ hbase'
          htail =>
          obtain ⟨rfl, rfl⟩ := Trial.run_eq_ok_unique hrun hrun'
          subst hbase hbase'
          obtain ⟨rfl, rfl⟩ := ih htail
          exact ⟨rfl, rfl⟩

/-- A search ends without a best solution just when it began without one and no attempt met the
deadline and the goal. -/
theorem best_eq_none_iff (h : search.Tries more progress order generator attempts last) :
    last.best = none ↔
      progress.best = none ∧ ∀ attempt ∈ attempts, ¬ attempt.Meets search.problem := by
  induction h with
  | last more progress order generator following solution hrun hover =>
      rw [advance_best_eq_none, List.forall_mem_singleton, ← isFeasible_iff, Bool.not_eq_true]
  | next more progress order generator following solution base attempts last hrun hgoing hbase _
      ih =>
      rw [ih, advance_best_eq_none, List.forall_mem_cons, ← isFeasible_iff, Bool.not_eq_true,
        and_assoc]

/-- The best solution of a search is the one it began with or that of an attempt that met the
deadline and the goal. -/
theorem best_mem (h : search.Tries more progress order generator attempts last)
    {best : Solution α × List JobId} (hbest : last.best = some best) :
    (∃ attempt ∈ attempts, attempt.solution = best.1 ∧ attempt.Meets search.problem) ∨
      progress.best = some best := by
  induction h with
  | last more progress order generator following solution hrun hover =>
      rcases advance_best_mem hbest with ⟨rfl, hfeasible⟩ | hbefore
      · exact .inl ⟨⟨order, solution⟩, by simp, rfl, isFeasible_iff.1 hfeasible⟩
      · exact .inr hbefore
  | next more progress order generator following solution base attempts last hrun hgoing hbase _
      ih =>
      rcases ih hbest with ⟨attempt, hattempt, hsolution, hmeets⟩ | hbefore
      · exact .inl ⟨attempt, List.mem_cons_of_mem _ hattempt, hsolution, hmeets⟩
      · rcases advance_best_mem hbefore with ⟨rfl, hfeasible⟩ | hbefore
        · exact .inl ⟨⟨order, solution⟩, by simp, rfl, isFeasible_iff.1 hfeasible⟩
        · exact .inr hbefore

end Tries

/-- Every order that a search knows of is one of all jobs: the first one and the best one. -/
def Ordered (search : LocalSearch α) (progress : Progress α) : Prop :=
  search.initial.Perm search.problem.workflow.jobIds ∧
    ∀ best ∈ progress.best, best.2.Perm search.problem.workflow.jobIds

/-- A pass over an order of all jobs leaves a search that knows of such orders only. -/
theorem Ordered.advance (h : search.Ordered progress)
    (horder : order.Perm search.problem.workflow.jobIds) :
    search.Ordered (advance search.problem progress order solution) := by
  refine ⟨h.1, fun best hbest => ?_⟩
  rcases advance_best_mem hbest with ⟨rfl, -⟩ | hbefore
  · exact horder
  · exact h.2 best hbefore

omit [Scalar α] in
/-- The order that is perturbed next is one of all jobs. -/
theorem Ordered.base_perm (h : search.Ordered progress) :
    ((progress.best.map Prod.snd).getD search.initial).Perm search.problem.workflow.jobIds := by
  cases hbest : progress.best with
  | none => exact h.1
  | some best => exact h.2 best hbest

/-- In an arranged workflow a search from an order of all jobs comes to an end, and every attempt is
a solution for an order of all jobs. -/
theorem continueFrom_ok (search : LocalSearch α)
    (harranged : search.problem.workflow.Arranged) (more : Nat)
    (hordered : search.Ordered progress) (horder : order.Perm search.problem.workflow.jobIds)
    (generator : Generator) :
    ∃ last following attempts, (search.continueFrom more progress order).run generator =
        (.ok last, following) ∧
      search.Tries more progress order generator attempts last ∧
      ∀ attempt ∈ attempts, attempt.order.Perm search.problem.workflow.jobIds ∧
        Pass.Solves search.problem search.timelines attempt.solution := by
  induction more generalizing progress order generator with
  | zero =>
      obtain ⟨solution, following, hrun⟩ :=
        Pass.run_ok harranged search.timelines horder generator
      have hsolves := Pass.solves_of_run harranged hrun
      refine ⟨_, following, _, Trial.run_bind_eq_ok.2 ⟨solution, following, hrun, rfl⟩,
        .last 0 progress order generator following solution hrun (.inl rfl), ?_⟩
      simpa using ⟨horder, hsolves⟩
  | succ more ih =>
      obtain ⟨solution, following, hrun⟩ :=
        Pass.run_ok harranged search.timelines horder generator
      have hsolves := Pass.solves_of_run harranged hrun
      cases hover : search.isOver (advance search.problem progress order solution) with
      | true =>
          refine ⟨_, following, _, Trial.run_bind_eq_ok.2 ⟨solution, following, hrun, ?_⟩,
            .last (more + 1) progress order generator following solution hrun (.inr hover), ?_⟩
          · dsimp only
            rw [if_pos hover]
            rfl
          · simpa using ⟨horder, hsolves⟩
      | false =>
          -- The next order is a perturbed one, so it is one of all jobs as well.
          have hnext : search.Ordered (advance search.problem progress order solution) :=
            hordered.advance horder
          have hperturbed := perturb_yields
            (((advance search.problem progress order solution).best.map Prod.snd).getD
              search.initial) search.groups
            (advance search.problem progress order solution).stagnation following
          obtain ⟨last, final, attempts, hcontinue, htries, hall⟩ :=
            ih hnext (hperturbed.trans hnext.base_perm)
              ((perturb _ search.groups
                (advance search.problem progress order solution).stagnation).run following).2
          refine ⟨last, final, _, Trial.run_bind_eq_ok.2 ⟨solution, following, hrun, ?_⟩,
            .next more progress order generator following solution _ attempts last hrun hover rfl
              htries, ?_⟩
          · dsimp only
            rw [hover, if_neg Bool.false_ne_true]
            exact Trial.run_bind_eq_ok.2 ⟨_, _, Trial.run_lift _ _, hcontinue⟩
          · rw [List.forall_mem_cons]
            exact ⟨⟨horder, hsolves⟩, hall⟩

end LocalSearch

end WattPlan
