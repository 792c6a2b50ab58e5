import Mathlib
import WattPlan.Planner
import WattPlan.Proofs.Catalog.Draft
import WattPlan.Proofs.Exact
import WattPlan.Proofs.LocalSearch.Attempts
import WattPlan.Proofs.Metrics
import WattPlan.Proofs.Workflow.Draft

/-!
# Calls of a planner

`Planner.Answers` lists what a call of the planner can come to, and `plan_answers` says that there
is nothing else. A call whose search succeeds goes by the end of the search (`plan_of_run`). For an
arranged workflow with jobs only two answers are left, which `plan_of_arranged` gives together with
the attempts of the search. `Planner.History` holds of the planners that any sequence of calls leads
to, with the plans that were returned on the way. `Chain` is a small planner to which the theorems
about calls are applied.
-/

namespace WattPlan

variable {α : Type} [Scalar α]

namespace Workflow

variable {workflow : Workflow α} {placements : List (Placement α)}

/-- The workflow with the bindings of its placements. -/
def bindAll {α : Type} (workflow : Workflow α) (placements : List (Placement α)) : Workflow α :=
  placements.foldl (fun workflow placement => workflow.bind placement.job placement.binding) workflow

omit [Scalar α] in
/-- A binding leaves what a workflow was before it was planned. -/
theorem unplanned_bind (workflow : Workflow α) (id : JobId) (binding : Binding α) :
    (workflow.bind id binding).unplanned = workflow.unplanned := by
  have hjobs : (workflow.jobs.modify id fun job => { job with binding := some binding }).map
      (fun job => { job with binding := none }) =
        workflow.jobs.map fun job => { job with binding := none } := by
    apply List.ext_getElem?
    intro place
    rw [List.getElem?_map, List.getElem?_modify, List.getElem?_map]
    cases workflow.jobs[place]? with
    | none => rfl
    | some job => by_cases h : id = place <;> simp [h]
  unfold bind unplanned
  rw [hjobs]

omit [Scalar α] in
/-- Bindings leave what a workflow was before it was planned. -/
theorem unplanned_bindAll (workflow : Workflow α) (placements : List (Placement α)) :
    (workflow.bindAll placements).unplanned = workflow.unplanned := by
  unfold bindAll
  induction placements generalizing workflow with
  | nil => rfl
  | cons placement rest ih =>
      rw [List.foldl_cons, ih, unplanned_bind]

end Workflow

namespace Planner

variable {planner : Planner α} {workflow : Workflow α} {catalog : Catalog α} {settings : Settings α}

/-- The metrics of a workflow under the variant of the planner. -/
def metricsOf (planner : Planner α) (workflow : Workflow α) : Except (PlanFault α) (Metrics α) :=
  Metrics.ofWorkflow workflow planner.catalog planner.profile.averaging planner.profile.speed

/-- The workflow with the deadline that the planner computes for it. -/
def date (planner : Planner α) (workflow : Workflow α) (metrics : Metrics α) : Workflow α :=
  { workflow with deadline := some (planner.deadlinesOf workflow metrics).deadline }

/-- The fault of a workflow for which the search finds nothing feasible. -/
def infeasibleFault (planner : Planner α) (workflow : Workflow α) (metrics : Metrics α) :
    PlanFault α :=
  .infeasible workflow.id workflow.name planner.settings.slackFactor
    (planner.goalOf workflow metrics) (planner.deadlinesOf workflow metrics).deadline

/-- What a call of the planner with a workflow can come to. -/
inductive Answers (planner : Planner α) (workflow : Workflow α) : Outcome α → Prop where
  | empty : workflow.jobs = [] →
      Answers planner workflow ⟨planner, workflow, .error (.emptyWorkflow workflow.name)⟩
  | unmeasured (fault : PlanFault α) : workflow.jobs ≠ [] →
      planner.metricsOf workflow = .error fault →
      Answers planner workflow ⟨planner, workflow, .error fault⟩
  | aborted (metrics : Metrics α) (fault : PlanFault α) (generator : Generator) :
      workflow.jobs ≠ [] → planner.metricsOf workflow = .ok metrics →
      (planner.searchOf workflow metrics).run.run planner.generator = (.error fault, generator) →
      Answers planner workflow
        ⟨{ planner with generator }, planner.date workflow metrics, .error fault⟩
  | infeasible (metrics : Metrics α) (progress : Progress α) (generator : Generator) :
      workflow.jobs ≠ [] → planner.metricsOf workflow = .ok metrics →
      (planner.searchOf workflow metrics).run.run planner.generator = (.ok progress, generator) →
      progress.best = none →
      Answers planner workflow ⟨{ planner with generator }, planner.date workflow metrics,
        .error (planner.infeasibleFault workflow metrics)⟩
  | committed (metrics : Metrics α) (progress : Progress α) (generator : Generator)
      (solution : Solution α) (order : List JobId) :
      workflow.jobs ≠ [] → planner.metricsOf workflow = .ok metrics →
      (planner.searchOf workflow metrics).run.run planner.generator = (.ok progress, generator) →
      progress.best = some (solution, order) →
      Answers planner workflow
        ⟨{ planner with generator }.commit workflow solution,
          (planner.date workflow metrics).bindAll solution.placements,
          .ok (planOf workflow (planner.searchOf workflow metrics) progress solution)⟩

/-- A call comes to one of the answers. -/
theorem plan_answers (planner : Planner α) (workflow : Workflow α) :
    Answers planner workflow (planner.plan workflow) := by
  unfold plan
  split
  · rename_i hempty
    exact .empty (List.isEmpty_iff.1 hempty)
  · rename_i hempty
    have hne : workflow.jobs ≠ [] := fun h => hempty (List.isEmpty_iff.2 h)
    split
    · rename_i fault hmetrics
      exact .unmeasured fault hne hmetrics
    · rename_i metrics hmetrics
      dsimp only
      cases hrun : (planner.searchOf workflow metrics).run.run planner.generator with
      | mk found generator =>
          cases found with
          | error fault => exact .aborted metrics fault generator hne hmetrics hrun
          | ok progress =>
              dsimp only
              split
              · rename_i hbest
                exact .infeasible metrics progress generator hne hmetrics hrun hbest
              · rename_i solution order hbest
                exact .committed metrics progress generator solution order hne hmetrics hrun hbest

/-- A call with a workflow without jobs says so and changes nothing. -/
theorem plan_of_jobs_eq_nil (planner : Planner α) (h : workflow.jobs = []) :
    planner.plan workflow = ⟨planner, workflow, .error (.emptyWorkflow workflow.name)⟩ := by
  simp [plan, h]

/-- A call leaves what the workflow was before it was planned. -/
theorem plan_unplanned (planner : Planner α) (workflow : Workflow α) :
    (planner.plan workflow).workflow.unplanned = workflow.unplanned := by
  have hplan := planner.plan_answers workflow
  generalize planner.plan workflow = outcome at hplan
  cases hplan with
  | empty | unmeasured | aborted | infeasible => rfl
  | committed => exact Workflow.unplanned_bindAll _ _

/-- A call leaves the catalog and the settings of the planner. -/
theorem plan_setup (planner : Planner α) (workflow : Workflow α) :
    (planner.plan workflow).planner.catalog = planner.catalog ∧
      (planner.plan workflow).planner.settings = planner.settings := by
  have hplan := planner.plan_answers workflow
  generalize planner.plan workflow = outcome at hplan
  cases hplan <;> exact ⟨rfl, rfl⟩

/-- The search for an arranged workflow comes to an end from every generator, and every attempt is a
solution for an order of all jobs. -/
theorem search_ok (harranged : workflow.Arranged) (planner : Planner α) (metrics : Metrics α) :
    ∃ progress generator attempts,
      (planner.searchOf workflow metrics).run.run planner.generator = (.ok progress, generator) ∧
      (planner.searchOf workflow metrics).Tries (LocalSearch.passLimit - 1) ⟨none, [], 0⟩
        (planner.searchOf workflow metrics).initial planner.generator attempts progress ∧
      ∀ attempt ∈ attempts, attempt.order.Perm workflow.jobIds ∧
        Pass.Solves (planner.problemOf workflow metrics) planner.timelines attempt.solution := by
  have hinitial := workflow.initialOrder_perm metrics planner.profile.priority
  exact (planner.searchOf workflow metrics).continueFrom_ok harranged _ ⟨hinitial, by simp⟩ hinitial
    planner.generator

/-- Every order that the search for an arranged workflow tries is one of all jobs. -/
theorem attempts_perm (harranged : workflow.Arranged)
    {attempts : List (LocalSearch.Attempt α)} (metrics : Metrics α)
    (hattempts : (planner.searchOf workflow metrics).Attempts planner.generator attempts) :
    ∀ attempt ∈ attempts, attempt.order.Perm (List.range workflow.jobs.length) := by
  obtain ⟨last, htries⟩ := hattempts
  obtain ⟨progress, generator, others, -, hothers, hall⟩ := search_ok harranged planner metrics
  obtain ⟨rfl, -⟩ := htries.unique hothers
  intro attempt hattempt
  rw [← harranged.jobIds_eq]
  exact (hall attempt hattempt).1

/-- What a call comes to when its search has come to its end. -/
def conclude (planner : Planner α) (workflow : Workflow α) (metrics : Metrics α)
    (progress : Progress α) : Outcome α :=
  match progress.best with
  | none =>
      ⟨planner, planner.date workflow metrics, .error (planner.infeasibleFault workflow metrics)⟩
  | some (solution, _) =>
      ⟨planner.commit workflow solution,
        (planner.date workflow metrics).bindAll solution.placements,
        .ok (planOf workflow (planner.searchOf workflow metrics) progress solution)⟩

/-- A call whose search succeeds goes by its end and keeps the generator that the search leaves. -/
theorem plan_of_run (planner : Planner α) (hne : workflow.jobs ≠ []) {metrics : Metrics α}
    (hmetrics : planner.metricsOf workflow = .ok metrics) {progress : Progress α}
    {generator : Generator}
    (hrun : (planner.searchOf workflow metrics).run.run planner.generator =
      (.ok progress, generator)) :
    planner.plan workflow = { planner with generator }.conclude workflow metrics progress := by
  have hplan := planner.plan_answers workflow
  generalize planner.plan workflow = outcome at hplan
  cases hplan with
  | empty hempty => exact absurd hempty hne
  | unmeasured fault _ hfault => cases hmetrics.symm.trans hfault
  | aborted other fault last _ hother hfault =>
      obtain rfl := Except.ok.inj (hmetrics.symm.trans hother)
      cases (Prod.mk.inj (hrun.symm.trans hfault)).1
  | infeasible other found last _ hother hfound hnone =>
      obtain rfl := Except.ok.inj (hmetrics.symm.trans hother)
      obtain ⟨rfl, rfl⟩ := Trial.run_eq_ok_unique hrun hfound
      rw [conclude, hnone]
      rfl
  | committed other found last solution order _ hother hfound hbest =>
      obtain rfl := Except.ok.inj (hmetrics.symm.trans hother)
      obtain ⟨rfl, rfl⟩ := Trial.run_eq_ok_unique hrun hfound
      rw [conclude, hbest]
      rfl

/-- Planning an arranged workflow with jobs either finds it infeasible, where no attempt met the
deadline and the goal, or commits the solution of an attempt that did. -/
theorem plan_of_arranged (harranged : workflow.Arranged) (hne : workflow.jobs ≠ [])
    (planner : Planner α) :
    ∃ metrics attempts generator, planner.metricsOf workflow = .ok metrics ∧
      metrics.Fits workflow planner.catalog ∧
      (planner.searchOf workflow metrics).Attempts planner.generator attempts ∧
      (∀ attempt ∈ attempts, attempt.order.Perm workflow.jobIds ∧
        Pass.Solves (planner.problemOf workflow metrics) planner.timelines attempt.solution) ∧
      ((planner.plan workflow = ⟨{ planner with generator }, planner.date workflow metrics,
          .error (planner.infeasibleFault workflow metrics)⟩ ∧
        ∀ attempt ∈ attempts, ¬ attempt.Meets (planner.problemOf workflow metrics)) ∨
      ∃ attempt ∈ attempts, attempt.Meets (planner.problemOf workflow metrics) ∧
        ∃ progress, planner.plan workflow =
          ⟨{ planner with generator }.commit workflow attempt.solution,
            (planner.date workflow metrics).bindAll attempt.solution.placements,
            .ok (planOf workflow (planner.searchOf workflow metrics) progress
              attempt.solution)⟩) := by
  obtain ⟨metrics, hmetrics, hfits⟩ := Metrics.ofWorkflow_eq_ok harranged planner.catalog
    planner.profile.averaging planner.profile.speed
  obtain ⟨progress, generator, attempts, hrun, htries, hattempts⟩ :=
    search_ok harranged planner metrics
  refine ⟨metrics, attempts, generator, hmetrics, hfits, ⟨progress, htries⟩, hattempts, ?_⟩
  rw [plan_of_run planner hne hmetrics hrun, conclude]
  cases hbest : progress.best with
  | none => exact .inl ⟨rfl, (htries.best_eq_none_iff.1 hbest).2⟩
  | some best =>
      obtain ⟨solution, order⟩ := best
      rcases htries.best_mem hbest with ⟨attempt, hattempt, rfl, hmeets⟩ | hbefore
      · exact .inr ⟨attempt, hattempt, hmeets, progress, rfl⟩
      · cases hbefore

/-- The planners that one comes to by calls with workflows of a kind, one after another, from the
idle planner of a catalog with some generator; with the plans that the calls returned. -/
inductive History (catalog : Catalog α) (settings : Settings α) (kind : Workflow α → Prop) :
    List (Plan α) → Planner α → Prop where
  | start (generator : Generator) :
      History catalog settings kind [] { Planner.start catalog settings with generator }
  | call (plans : List (Plan α)) (planner : Planner α) (workflow : Workflow α) :
      History catalog settings kind plans planner → kind workflow →
      History catalog settings kind (plans ++ (planner.plan workflow).result.toOption.toList)
        (planner.plan workflow).planner

namespace History

variable {kind : Workflow α → Prop} {plans : List (Plan α)}

/-- A planner keeps its catalog and its settings. -/
theorem setup (h : History catalog settings kind plans planner) :
    planner.catalog = catalog ∧ planner.settings = settings := by
  induction h with
  | start => exact ⟨rfl, rfl⟩
  | call plans planner workflow _ _ ih =>
      obtain ⟨hcatalog, hsettings⟩ := planner.plan_setup workflow
      exact ⟨hcatalog.trans ih.1, hsettings.trans ih.2⟩

/-- A property of planners that every returned plan keeps holds after every history, if it holds at
the start and says nothing about the generator. -/
theorem preserves {P : List (Plan α) → Planner α → Prop}
    (h : History catalog settings kind plans planner)
    (hkind : ∀ workflow, kind workflow → workflow.Arranged)
    (hstart : ∀ generator, P [] { Planner.start catalog settings with generator })
    (hgenerator : ∀ plans planner generator, P plans planner → P plans { planner with generator })
    (hcommit : ∀ plans planner workflow metrics solution plan, P plans planner →
      planner.catalog = catalog → kind workflow → metrics.Fits workflow catalog →
      Pass.Solves (planner.problemOf workflow metrics) planner.timelines solution →
      plan.cost = solution.cost → P (plans ++ [plan]) (planner.commit workflow solution)) :
    P plans planner := by
  induction h with
  | start generator => exact hstart generator
  | call plans planner workflow hbefore hworkflow ih =>
      by_cases hne : workflow.jobs = []
      · rw [plan_of_jobs_eq_nil planner hne]
        show P (plans ++ []) planner
        rwa [List.append_nil]
      · obtain ⟨metrics, attempts, generator, -, hfits, -, hsolves, hplan | hplan⟩ :=
          plan_of_arranged (hkind workflow hworkflow) hne planner
        · rw [hplan.1]
          show P (plans ++ []) { planner with generator }
          rw [List.append_nil]
          exact hgenerator plans planner generator ih
        · obtain ⟨attempt, hattempt, -, progress, hplan⟩ := hplan
          rw [hplan]
          rw [hbefore.setup.1] at hfits
          exact hgenerator _ _ _ (hcommit plans planner workflow metrics attempt.solution _ ih
            hbefore.setup.1 hworkflow hfits (hsolves attempt hattempt).2 rfl)

end History

end Planner

/-!
## A chain of two jobs

A planner over rational numbers with a node at each of two sites, and a workflow of two jobs of
which the second reads what the first writes.
-/

namespace Chain

open Exact

/-- Functions that agree with the exponential at 0 and with the square roots of 0, 1 and 4, which is
all that is computed of them here. -/
scoped instance : Exponentials ℚ where
  exp x := 1 + x
  pow x _ := if x = 4 then 2 else x

def north : Site (Exact ℚ) :=
  ⟨0, "north", ⟨[finite 3, finite 5], List.cons_ne_nil _ _⟩⟩

def south : Site (Exact ℚ) :=
  ⟨1, "south", ⟨[finite 4], List.cons_ne_nil _ _⟩⟩

def catalog : Catalog (Exact ℚ) where
  sites := [north, south]
  nodes :=
    [⟨0, "slow", north, ⟨finite 1, finite 100, finite 0⟩, []⟩,
      ⟨1, "fast", south, ⟨finite 4, finite 300, finite 0⟩, [⟨finite 2, finite 120, finite 0⟩]⟩]
  network := ⟨finite 10, finite 2⟩
  nonempty := List.cons_ne_nil _ _

/-- The chain with a reliability goal. The first job reads a stored input at the slow node. -/
def workflow (goal : ℚ) : Workflow (Exact ℚ) where
  id := 7
  name := "chain"
  submittedAt := finite 5
  reliabilityGoal := some (finite goal)
  deadline := none
  jobs :=
    [⟨0, "first", finite 8, 0, [], [1], [⟨"seed", finite 6, some 0⟩], [],
        [⟨"data", finite 20, none⟩], none⟩,
      ⟨1, "second", finite 4, 1, [0], [], [], [⟨"data", finite 20, none⟩], [], none⟩]

def settings : Settings (Exact ℚ) :=
  ⟨.heft, finite 1, finite 1, 0, finite 1, finite 1, finite 1, 3, 3⟩

def planner : Planner (Exact ℚ) :=
  .start catalog settings

theorem catalog_drafted : catalog.Drafted := by
  refine ⟨_, ⟨finite 10, finite 2⟩, finite 10, finite 2, CatalogDraft.Drawn.empty.perform
    [.site "north" [finite 3, finite 5], .site "south" [finite 4],
      .node "slow" 0 [⟨finite 1, finite 100, finite 0⟩],
      .node "fast" 1 [⟨finite 4, finite 300, finite 0⟩, ⟨finite 2, finite 120, finite 0⟩]], ?_, ?_⟩
  · with_unfolding_all rfl
  · with_unfolding_all rfl

theorem workflow_drafted (goal : ℚ) : (workflow goal).Drafted := by
  refine ⟨_, (WorkflowDraft.Drawn.empty 7 "chain" (finite 5) (some (finite goal))).perform
    [.job "first" (finite 8), .job "second" (finite 4), .dependency 0 1,
      .input 0 ⟨"seed", finite 6, some 0⟩, .output 0 ⟨"data", finite 20, none⟩,
      .input 1 ⟨"data", finite 20, none⟩], ?_⟩
  cbv

/-- On the idle planner the attempts at the chain reach the goal 1, but not the goal 4. -/
theorem meets_iff {goal : ℚ} (hgoal : goal ∈ [1, 4]) {metrics : Metrics (Exact ℚ)}
    (hmetrics : planner.metricsOf (workflow goal) = .ok metrics)
    {attempts : List (LocalSearch.Attempt (Exact ℚ))}
    (hattempts : (planner.searchOf (workflow goal) metrics).Attempts planner.generator attempts)
    {attempt : LocalSearch.Attempt (Exact ℚ)} (hattempt : attempt ∈ attempts) :
    attempt.Meets (planner.problemOf (workflow goal) metrics) ↔ goal = 1 := by
  -- Both orders of the two jobs are evaluated; two sweeps are enough for either.
  have heval : ∀ goal ∈ [(1 : ℚ), 4], ∀ order ∈ [0, 1].permutations',
      ((planner.metricsOf (workflow goal)).toOption.all fun metrics =>
        ((Pass.run (planner.problemOf (workflow goal) metrics) planner.timelines order).run
          planner.generator).1.toOption.all fun solution =>
            LocalSearch.isFeasible (planner.problemOf (workflow goal) metrics) solution ==
              decide (goal = 1)) = true := by
    unfold Pass.run
    unfold Pass.sweeps
    unfold Pass.sweeps
    unfold Pass.sweeps
    decide +kernel
  obtain ⟨last, htries⟩ := hattempts
  obtain ⟨solution, following, rfl, hrun⟩ := htries.of_singlePass rfl
  obtain rfl := List.mem_singleton.1 hattempt
  have horder := (workflow goal).initialOrder_perm metrics planner.profile.priority
  have hfeasible := heval goal hgoal _ (List.mem_permutations'.2 horder)
  have hrun' : (Pass.run (planner.problemOf (workflow goal) metrics) planner.timelines
      ((workflow goal).initialOrder metrics planner.profile.priority)).run planner.generator =
        (.ok solution, following) := hrun
  rw [hmetrics] at hfeasible
  simp only [Except.toOption, Option.all_some] at hfeasible
  rw [hrun'] at hfeasible
  have hdecided : LocalSearch.isFeasible (planner.problemOf (workflow goal) metrics) solution =
      decide (goal = 1) := eq_of_beq hfeasible
  rw [← LocalSearch.isFeasible_iff, hdecided, decide_eq_true_iff]

end Chain

end WattPlan
