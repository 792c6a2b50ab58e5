import WattPlan.Proofs.Pass.Completion
import WattPlan.Proofs.Planner.Calls

/-!
# Plans that do not depend on the generator

The variants of a single pass over fixed sites draw for nothing but a job that finds no feasible
candidate. If every turn of a pass finds one, the turns settle (`Pass.Takes.settles`) and so does
the pass (`Pass.run_settles`). Then two planners that differ in their generators alone answer a call
in the same way, and both keep their generators (`Planner.plan_of_finds`).
-/

namespace WattPlan

variable {α : Type} [Scalar α]

/-- The site orderings that draw nothing. -/
def SiteOrdering.isFixed : SiteOrdering → Bool
  | .random | .dataLocality | .boundedRetry => false
  | _ => true

namespace Turn

/-- A turn that finds a candidate on fixed sites settles. -/
theorem settles_of_finds {turn : Turn α}
    (hsites : turn.request.problem.profile.siteOrdering.isFixed = true)
    (hlevel : turn.request.problem.profile.levelSearch ≠ .random)
    (hfinds : turn.finds = true) : turn.Settles := by
  obtain ⟨found, hfound⟩ : ∃ found, turn.request.feasibleCandidate = pure found := by
    unfold Request.feasibleCandidate
    cases hordering : turn.request.problem.profile.siteOrdering <;> rw [hordering] at hsites
    case random | dataLocality | boundedRetry => cases hsites
    all_goals exact ⟨_, rfl⟩
  rw [finds, hfound] at hfinds
  obtain ⟨candidate, rfl⟩ := Option.isSome_iff_exists.1 hfinds
  intro generator
  rw [result, Request.search_eq_pure hlevel hfound]
  rfl

end Turn

namespace Pass

open Trial

variable {pass : Pass α} {problem : Problem α} {timelines : Timelines α}
  {turns : List (Turn α)} {generator following : Generator}

/-- Turns that find candidates on fixed sites settle. -/
theorem Takes.settles (h : Takes problem timelines generator turns pass following)
    (hsites : problem.profile.siteOrdering.isFixed = true)
    (hlevel : problem.profile.levelSearch ≠ .random) (hfinds : ∀ turn ∈ turns, turn.finds = true) :
    ∀ turn ∈ turns, turn.Settles := by
  intro turn hturn
  obtain ⟨-, earlier, hrequest⟩ := h.exists_request turn hturn
  rw [← (asks_of_request hrequest).1.problem_eq] at hsites hlevel
  exact Turn.settles_of_finds hsites hlevel (hfinds turn hturn)

/-- A run in which every turn finds a candidate on fixed sites settles. -/
theorem run_settles (harranged : problem.workflow.Arranged)
    (hsites : problem.profile.siteOrdering.isFixed = true)
    (hlevel : problem.profile.levelSearch ≠ .random) {order : List JobId} {solution : Solution α}
    {final : Generator}
    (hrun : (Pass.run problem timelines order).run generator = (.ok solution, final))
    (hfinds : ∀ turn ∈ Pass.turns problem solution.commitOrder (start timelines) generator,
      turn.finds = true) :
    Settles (Pass.run problem timelines order) solution := by
  obtain ⟨turns, last, htakes, -, hsolution, hsettled⟩ := exists_takes_of_run harranged hrun
  obtain ⟨placements, -, rfl⟩ := solution_eq_ok hsolution
  rw [htakes.turns_eq harranged] at hfinds
  exact hsettled (htakes.settles hsites hlevel hfinds)

end Pass

/-- A search of a single pass settles with its pass. -/
theorem LocalSearch.continueFrom_settles {search : LocalSearch α}
    (hsingle : search.problem.profile.budget = .singlePass) {order : List JobId}
    {solution : Solution α}
    (h : Trial.Settles (Pass.run search.problem search.timelines order) solution) (more : Nat)
    (progress : Progress α) :
    Trial.Settles (search.continueFrom more progress order)
      (advance search.problem progress order solution) := by
  unfold continueFrom
  refine h.bind ?_
  cases more with
  | zero => exact fun _ => rfl
  | succ more =>
      dsimp only
      rw [if_pos (by simp [isOver, hsingle])]
      exact fun _ => rfl

namespace Planner

variable {planner : Planner α} {workflow : Workflow α}

/-- The turns of the jobs in the first pass over a workflow. There are none where the workflow has
no metrics or the pass fails. -/
def turnsOf (planner : Planner α) (workflow : Workflow α) : List (Turn α) :=
  match planner.metricsOf workflow with
  | .error _ => []
  | .ok metrics =>
      let search := planner.searchOf workflow metrics
      match ((Pass.run search.problem search.timelines search.initial).run
          planner.generator).1 with
      | .error _ => []
      | .ok solution =>
          Pass.turns search.problem solution.commitOrder (.start search.timelines)
            planner.generator

/-- The turns of a first pass that succeeds are those of its jobs. -/
theorem turnsOf_eq {metrics : Metrics α} (hmetrics : planner.metricsOf workflow = .ok metrics)
    {solution : Solution α} {final : Generator}
    (hrun : (Pass.run (planner.problemOf workflow metrics) planner.timelines
      (workflow.initialOrder metrics planner.profile.priority)).run planner.generator =
        (.ok solution, final)) :
    planner.turnsOf workflow = Pass.turns (planner.problemOf workflow metrics)
      solution.commitOrder (.start planner.timelines) planner.generator := by
  have hfirst : (Pass.run (planner.searchOf workflow metrics).problem
      (planner.searchOf workflow metrics).timelines
      (planner.searchOf workflow metrics).initial).run planner.generator =
        (.ok solution, final) := hrun
  unfold turnsOf
  rw [hmetrics]
  dsimp only
  rw [hfirst]
  rfl

/-- An arranged workflow has metrics, and the first pass over it succeeds. Its turns lead from the
timelines and the generator of the planner to a pass that has placed every job. -/
theorem takes_turnsOf (harranged : workflow.Arranged) (planner : Planner α) :
    ∃ metrics solution last final, planner.metricsOf workflow = .ok metrics ∧
      (Pass.run (planner.problemOf workflow metrics) planner.timelines
        (workflow.initialOrder metrics planner.profile.priority)).run planner.generator =
          (.ok solution, final) ∧
      Pass.Takes (planner.problemOf workflow metrics) planner.timelines planner.generator
        (planner.turnsOf workflow) last final ∧
      last.commitOrder.Perm workflow.jobIds := by
  obtain ⟨metrics, hmetrics, -⟩ := Metrics.ofWorkflow_eq_ok harranged planner.catalog
    planner.profile.averaging planner.profile.speed
  have hproblem : (planner.problemOf workflow metrics).workflow.Arranged := harranged
  obtain ⟨solution, final, hrun⟩ := Pass.run_ok hproblem planner.timelines
    (workflow.initialOrder_perm metrics planner.profile.priority) planner.generator
  obtain ⟨turns, last, htakes, hall, hsolution, -⟩ := Pass.exists_takes_of_run hproblem hrun
  refine ⟨metrics, solution, last, final, hmetrics, hrun, ?_, hall⟩
  obtain ⟨placements, -, rfl⟩ := Pass.solution_eq_ok hsolution
  rwa [turnsOf_eq hmetrics hrun, htakes.turns_eq harranged]

/-- Planners that differ in their generators alone conclude a call alike. -/
theorem conclude_generator (planner : Planner α) (workflow : Workflow α) (metrics : Metrics α)
    (progress : Progress α) (other : Generator) :
    { planner with generator := other }.conclude workflow metrics progress =
      { planner.conclude workflow metrics progress with
        planner := { (planner.conclude workflow metrics progress).planner with
          generator := other } } := by
  unfold conclude
  cases progress.best <;> rfl

omit [Scalar α] in
/-- The single-pass variants search fixed sites and choose no level by chance. -/
theorem profile_singlePass (hvariant : planner.settings.variant ∈ [Variant.heft, .epee]) :
    planner.profile.siteOrdering.isFixed = true ∧ planner.profile.levelSearch ≠ .random ∧
      planner.profile.budget = .singlePass := by
  unfold profile
  rcases List.mem_pair.1 hvariant with h | h <;> rw [h] <;> decide

/-- Two planners of a single-pass variant that differ in their generators alone answer a call in the
same way, if every job finds a feasible candidate when one of them is called. Both keep their
generators. -/
theorem plan_of_finds (hvariant : planner.settings.variant ∈ [Variant.heft, .epee])
    (hworkflow : workflow.Drafted) (hfinds : ∀ turn ∈ planner.turnsOf workflow, turn.finds = true)
    (other : Generator) :
    (planner.plan workflow).planner.generator = planner.generator ∧
    { planner with generator := other }.plan workflow =
      { planner.plan workflow with
        planner := { (planner.plan workflow).planner with generator := other } } := by
  by_cases hne : workflow.jobs = []
  · rw [plan_of_jobs_eq_nil planner hne,
      plan_of_jobs_eq_nil { planner with generator := other } hne]
    exact ⟨rfl, rfl⟩
  obtain ⟨metrics, solution, last, final, hmetrics, hrun, -, -⟩ :=
    takes_turnsOf hworkflow.arranged planner
  rw [turnsOf_eq hmetrics hrun] at hfinds
  have hproblem : (planner.problemOf workflow metrics).workflow.Arranged := hworkflow.arranged
  obtain ⟨hsites, hlevel, hsingle⟩ :
      (planner.problemOf workflow metrics).profile.siteOrdering.isFixed = true ∧
      (planner.problemOf workflow metrics).profile.levelSearch ≠ .random ∧
      (planner.searchOf workflow metrics).problem.profile.budget = .singlePass :=
    profile_singlePass hvariant
  have hsearch := LocalSearch.continueFrom_settles hsingle
    (Pass.run_settles hproblem hsites hlevel hrun hfinds) (LocalSearch.passLimit - 1) ⟨none, [], 0⟩
  rw [plan_of_run { planner with generator := other } hne hmetrics (hsearch other),
    plan_of_run planner hne hmetrics (hsearch planner.generator)]
  refine ⟨?_, conclude_generator planner workflow metrics _ other⟩
  unfold conclude
  split <;> rfl

end Planner

namespace Chain

/-- Both jobs of the chain find a candidate, whichever of them comes first. -/
theorem finds_of_order {order : List JobId} (horder : order ∈ [0, 1].permutations')
    {metrics : Metrics (Exact ℚ)} (hmetrics : planner.metricsOf (workflow 1) = .ok metrics)
    {solution : Solution (Exact ℚ)} {final : Generator}
    (hrun : (Pass.run (planner.problemOf (workflow 1) metrics) planner.timelines order).run
      planner.generator = (.ok solution, final)) :
    ∀ turn ∈ Pass.turns (planner.problemOf (workflow 1) metrics) solution.commitOrder
      (.start planner.timelines) planner.generator, turn.finds = true := by
  have heval : ∀ order ∈ [0, 1].permutations',
      ((planner.metricsOf (workflow 1)).toOption.all fun metrics =>
        ((Pass.run (planner.problemOf (workflow 1) metrics) planner.timelines order).run
          planner.generator).1.toOption.all fun solution =>
            (Pass.turns (planner.problemOf (workflow 1) metrics) solution.commitOrder
              (.start planner.timelines) planner.generator).all Turn.finds) = true := by
    unfold Pass.run
    unfold Pass.sweeps
    unfold Pass.sweeps
    unfold Pass.sweeps
    decide +kernel
  have hfinds := heval order horder
  rw [hmetrics] at hfinds
  simp only [Except.toOption, Option.all_some, hrun] at hfinds
  exact List.all_eq_true.1 hfinds

/-- A planner with another seed plans the chain alike. -/
theorem planned_alike : planner.settings.variant ∈ [Variant.heft, .epee] ∧
    (workflow 1).Drafted ∧ (∀ turn ∈ planner.turnsOf (workflow 1), turn.finds = true) ∧
    Generator.ofSeed 1 ≠ planner.generator ∧
    (planner.plan (workflow 1)).planner.generator = planner.generator ∧
    { planner with generator := Generator.ofSeed 1 }.plan (workflow 1) =
      { planner.plan (workflow 1) with
        planner :=
          { (planner.plan (workflow 1)).planner with generator := Generator.ofSeed 1 } } := by
  have hvariant : planner.settings.variant ∈ [Variant.heft, .epee] := by decide
  have hseed : Generator.ofSeed 1 ≠ planner.generator := by decide +kernel
  obtain ⟨metrics, solution, last, final, hmetrics, hrun, -, -⟩ :=
    Planner.takes_turnsOf (workflow_drafted 1).arranged planner
  have hfinds : ∀ turn ∈ planner.turnsOf (workflow 1), turn.finds = true := by
    rw [Planner.turnsOf_eq hmetrics hrun]
    refine finds_of_order ?_ hmetrics hrun
    exact List.mem_permutations'.2 ((workflow 1).initialOrder_perm metrics planner.profile.priority)
  obtain ⟨hkeeps, halike⟩ :=
    Planner.plan_of_finds hvariant (workflow_drafted 1) hfinds (Generator.ofSeed 1)
  exact ⟨hvariant, workflow_drafted 1, hfinds, hseed, hkeeps, halike⟩

end Chain

end WattPlan
