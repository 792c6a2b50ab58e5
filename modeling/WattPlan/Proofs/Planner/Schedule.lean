import WattPlan.Proofs.Planner.Consistency

/-!
# Returned plans are valid schedules

A returned plan has one placement for each job. `Plan.Places` says what makes it a valid one: it is
on a node of the catalog at one of its levels, it begins when the stored inputs and the outputs of
the parents are there, its window is in the timeline of the node, the job is bound to it, and its
cost is the bill of staging and execution at its start. `plan_places` proves this for every plan
that is returned after any history of calls.
-/

namespace WattPlan

open Exact

section Bindings

variable {α : Type} {workflow : Workflow α} {job : Job α} {id : JobId} {binding : Binding α}

/-- A job that is bound is found with its binding. -/
theorem Workflow.job?_bind_self (h : workflow.job? id = some job) :
    (workflow.bind id binding).job? id = some { job with binding := some binding } := by
  rw [Workflow.job?] at h ⊢
  simp [Workflow.bind, h]

/-- The other jobs are found as they were. -/
theorem Workflow.job?_bind_of_ne {other : JobId} (h : id ≠ other) :
    (workflow.bind id binding).job? other = workflow.job? other := by
  simp [Workflow.job?, Workflow.bind, h]

/-- Jobs without a placement are found as they were. -/
theorem Workflow.job?_bindAll_of_notMem {placements : List (Placement α)}
    (h : id ∉ placements.map Placement.job) :
    (workflow.bindAll placements).job? id = workflow.job? id := by
  induction placements generalizing workflow with
  | nil => rfl
  | cons placement rest ih =>
      rw [List.map_cons, List.mem_cons, not_or] at h
      exact (ih h.2).trans (Workflow.job?_bind_of_ne (Ne.symm h.1))

/-- A job with one placement is found with the binding of that. -/
theorem Workflow.job?_bindAll {placements : List (Placement α)} {placement : Placement α}
    (hmem : placement ∈ placements) (hnodup : (placements.map Placement.job).Nodup)
    (h : workflow.job? placement.job = some job) :
    (workflow.bindAll placements).job? placement.job =
      some { job with binding := some placement.binding } := by
  induction placements generalizing workflow with
  | nil => cases hmem
  | cons first rest ih =>
      rw [List.map_cons, List.nodup_cons] at hnodup
      rcases List.mem_cons.1 hmem with rfl | hrest
      · exact (Workflow.job?_bindAll_of_notMem hnodup.1).trans (Workflow.job?_bind_self h)
      · have hne : first.job ≠ placement.job := by
          intro heq
          exact hnodup.1 (heq ▸ List.mem_map_of_mem hrest)
        exact ih hrest hnodup.2 ((Workflow.job?_bind_of_ne hne).trans h)

end Bindings

section Bills

variable {α : Type} [Scalar α]

/-- What a job reads of its parents, from the placements of a plan. -/
def Workflow.arrivalsOf (workflow : Workflow α) (placements : List (Placement α)) (job : Job α) :
    List (Arrival α) :=
  job.parents.filterMap fun parent =>
    (placements[parent]?).bind fun before => (workflow.job? parent).map fun writer =>
      ⟨before.finish, before.node, job.dataFrom writer⟩

/-- What the staging of a job on a node costs at a power, when all inputs are there at `ready`: over
the time from the submission, or from the first finish of a parent, until then; or for the stored
inputs and for each transfer by itself. -/
def Catalog.stagingBill (catalog : Catalog α) (billing : StagingBilling) (workflow : Workflow α)
    (job : Job α) (arrivals : List (Arrival α)) (node : Node α) (power ready : α) : α :=
  match billing with
  | .readyWindow =>
      let begin :=
        if arrivals.isEmpty then workflow.submittedAt
        else Scalar.minFrom Scalar.infinity (arrivals.map Arrival.finish)
      node.site.tariff.energyCost begin ready power
  | .perTransfer =>
      let transfers := arrivals.map fun arrival =>
        node.site.tariff.energyCost arrival.finish
          (arrival.finish + catalog.transferTime arrival.data arrival.node node) power
      transfers.foldl (· + ·)
        (node.site.tariff.energyCost (ready - catalog.stagingTime job node) ready power)

/-- A placement of a job is valid in a plan for a workflow: `placements` are those of the plan,
`timelines` and `bound` the timelines and the workflow after it. -/
structure Plan.Places (catalog : Catalog α) (billing : StagingBilling) (workflow : Workflow α)
    (placements : List (Placement α)) (timelines : Timelines α) (bound : Workflow α) (job : Job α)
    (placement : Placement α) : Prop where
  node : catalog.node? placement.node.id = some placement.node
  ready : placement.ready ≤ placement.start
  staged : workflow.submittedAt + catalog.stagingTime job placement.node ≤ placement.ready
  precedence : ∀ parent ∈ job.parents, ∃ before writer, placements[parent]? = some before ∧
    workflow.job? parent = some writer ∧
    before.finish + catalog.transferTime (job.dataFrom writer) before.node placement.node +
      catalog.stagingTime job placement.node ≤ placement.start
  window : ⟨placement.start, placement.finish, ⟨workflow.id, job.id⟩⟩ ∈
    (timelines.ofNode placement.node.id).windows
  binding : bound.job? job.id = some { job with binding := some placement.binding }
  level : ∃ level, placement.node.levels[placement.level]? = some level ∧
    placement.finish = placement.start + job.length / level.speed ∧
    placement.cost = catalog.stagingBill billing workflow job (workflow.arrivalsOf placements job)
        placement.node level.power placement.ready +
      placement.node.site.tariff.energyCost placement.start placement.finish level.power

end Bills

namespace Pass

section Placements

variable {α : Type} [Scalar α] {problem : Problem α} {timelines : Timelines α}
  {solution : Solution α} {pass : Pass α}

/-- The arrivals of a request are those that the placements give. -/
theorem Asks.arrivals_eq {job : Job α} {request : Request α}
    (hasks : pass.Asks problem job request) {placements : List (Placement α)}
    (hplacements : ∀ id, placements[id]? = pass.placement? id) :
    problem.workflow.arrivalsOf placements job = request.arrivals := by
  refine filterMap_eq_of_forall₂ (hasks.arrivals_from.imp fun parent arrival harrival => ?_)
  obtain ⟨before, writer, hbefore, hwriter, rfl⟩ := arrivalFrom_eq_ok harrival
  rw [hplacements, hbefore, hwriter]
  rfl

end Placements

variable {K : Type} [Field K] [LinearOrder K] [IsStrictOrderedRing K] [FloorRing K]
  [Exponentials K] {problem : Problem (Exact K)} {timelines : Timelines (Exact K)}
  {pass : Pass (Exact K)}

omit [IsStrictOrderedRing K] in
/-- The staging cost that a request computes is the staging bill. -/
theorem Asks.stagingCost_eq {job : Job (Exact K)} {request : Request (Exact K)}
    (hasks : pass.Asks problem job request) (htimed : problem.Timed)
    (hjob : job ∈ problem.workflow.jobs) {node : Node (Exact K)}
    (hnode : node ∈ problem.catalog.nodes) (power ready : Exact K) :
    request.stagingCost node power ready =
      problem.catalog.stagingBill problem.profile.staging problem.workflow job request.arrivals
        node power ready := by
  have hstaging := hasks.stagingTime_eq htimed hjob hnode
  unfold Request.stagingCost Request.transferTime Catalog.stagingBill
  rw [hasks.problem_eq, hasks.begin_eq, hstaging]
  cases problem.profile.staging <;> rfl

/-- A placement that a pass accounts for is valid, given that it is in order and that the job is
bound to it. -/
theorem Reached.places (hreached : Reached problem timelines pass) (htimed : problem.Timed)
    (hsound : ∀ node, (timelines.ofNode node).Sound)
    (hlength : timelines.nodes.length = problem.catalog.nodes.length)
    {placements : List (Placement (Exact K))}
    (hplacements : ∀ id, placements[id]? = pass.placement? id) {job : Job (Exact K)}
    {placement : Placement (Exact K)} (hjob : job ∈ problem.workflow.jobs)
    (hplacement : pass.placement? job.id = some placement) {bound : Workflow (Exact K)}
    (hbound : bound.job? job.id = some { job with binding := some placement.binding }) :
    Plan.Places problem.catalog problem.profile.staging problem.workflow placements pass.timelines
      bound job placement := by
  have hpass := hreached.timed htimed hsound
  obtain ⟨hmem, hsame⟩ := placement?_eq_some hplacement
  obtain ⟨hwindow, other, request, hother, hasks, node, hnode, ⟨level, place⟩, hchoice, horigin⟩ :=
    hreached.accounts htimed.catalog htimed.arranged hlength placement hmem
  rw [hsame] at hother
  obtain rfl := Option.some.inj ((htimed.arranged.job?_id hjob).symm.trans hother)
  rw [hasks.problem_eq] at hnode
  obtain ⟨r, hready, hstaged, harrived, -⟩ :=
    hasks.readyTime_finite htimed hpass.finishes hjob hnode
  have hbegins := hpass.begins placement hmem
  obtain ⟨⟨node', level', ready, start, finish, cost, reliability⟩, id⟩ := placement
  dsimp only at horigin hsame hbegins
  -- From here on every field of the candidate is what its evaluation computed.
  cases horigin
  subst hsame
  have harrivals := hasks.arrivals_eq hplacements
  constructor
  case node => exact htimed.catalog.node?_id hnode
  case ready => exact hbegins
  case staged =>
    show _ ≤ request.readyTime node
    rw [hready]
    exact hstaged
  case precedence =>
    intro parent hparent
    obtain ⟨arrival, harrival, hfrom⟩ := forall₂_exists_right hasks.arrivals_from hparent
    obtain ⟨before, writer, hbefore, hwriter, rfl⟩ := arrivalFrom_eq_ok hfrom
    refine ⟨before, writer, (hplacements parent).trans hbefore, hwriter, ?_⟩
    have hbound := harrived _ harrival
    rw [← hready] at hbound
    exact Exact.le_trans hbound hbegins
  case window => exact hwindow
  case binding => exact hbound
  case level =>
    refine ⟨level, List.mk_mem_zipIdx_iff_getElem?.1 hchoice, ?_, ?_⟩
    · show _ + level.execTime request.job.length = _ + job.length / level.speed
      rw [hasks.job_eq]
      rfl
    · rw [harrivals]
      show request.stagingCost node level.power (request.readyTime node) + _ = _ + _
      rw [hasks.stagingCost_eq htimed hjob hnode]

end Pass

namespace Planner

variable {K : Type} [Field K] [LinearOrder K] [IsStrictOrderedRing K] [FloorRing K]
  [Exponentials K] {catalog : Catalog (Exact K)} {settings : Settings (Exact K)}
  {planner : Planner (Exact K)} {plans : List (Plan (Exact K))} {workflow : Workflow (Exact K)}
  {plan : Plan (Exact K)}

/-- A plan that is returned after any history of calls with submitted workflows is a valid schedule
of its workflow: it has one placement for each job, listed by job, and each of them is valid. -/
theorem plan_places (hcatalog : catalog.Drafted)
    (h : History catalog settings Workflow.Submitted plans planner) (hworkflow : workflow.Submitted)
    (hplan : (planner.plan workflow).result = .ok plan) :
    plan.placements.length = workflow.jobs.length ∧
    ∀ job ∈ workflow.jobs, ∃ placement, plan.placements[job.id]? = some placement ∧
      (∀ (place : Nat) (other : Placement (Exact K)), plan.placements[place]? = some other →
        (other.job = job.id ↔ place = job.id)) ∧
      Plan.Places catalog settings.variant.profile.staging workflow plan.placements
        (planner.plan workflow).planner.timelines (planner.plan workflow).workflow job
        placement := by
  have hconsistent := h.consistent hcatalog
  obtain ⟨rfl, rfl⟩ := h.setup
  have harranged := hworkflow.1.arranged
  have hne : workflow.jobs ≠ [] := by
    intro hempty
    rw [plan_of_jobs_eq_nil planner hempty] at hplan
    cases hplan
  obtain ⟨metrics, attempts, generator, -, hfits, -, hsolves, hfail | hcommit⟩ :=
    plan_of_arranged harranged hne planner
  · rw [hfail.1] at hplan
    cases hplan
  · obtain ⟨attempt, hattempt, -, progress, houtcome⟩ := hcommit
    rw [houtcome] at hplan ⊢
    cases hplan
    obtain ⟨pass, hreached, htimelines, hlength, hplacements⟩ :=
      (hsolves attempt hattempt).2.placements_eq harranged
    have hjobs := Pass.map_job_eq_range hplacements
    have htimed := problemOf_timed hcatalog hworkflow hfits
    refine ⟨hlength, fun job hjob => ?_⟩
    have hid : job.id < attempt.solution.placements.length := by
      rw [hlength]
      exact harranged.mem_jobIds.1 (List.mem_map_of_mem hjob)
    have hlisted := List.getElem?_eq_getElem hid
    have hplacement := (hplacements job.id).symm.trans hlisted
    refine ⟨_, hlisted, fun place other hother => ?_, ?_⟩
    · rw [(Pass.placement?_eq_some ((hplacements place).symm.trans hother)).2]
    · have hsame := (Pass.placement?_eq_some hplacement).2
      have hfound : (planner.date workflow metrics).job?
          attempt.solution.placements[job.id].job = some job := by
        rw [hsame]
        exact harranged.job?_id hjob
      have hbound := Workflow.job?_bindAll (List.getElem_mem hid)
        (by rw [hjobs]; exact List.nodup_range) hfound
      rw [hsame] at hbound
      have hplaces := hreached.places htimed hconsistent.sound hconsistent.nodes hplacements hjob
        hplacement hbound
      rw [← htimelines] at hplaces
      exact hplaces

end Planner

namespace Chain

theorem planned_ok : ∃ plan, planned.result = .ok plan := by
  obtain ⟨metrics, attempts, generator, hmetrics, -, hattempts, -, hfail | hcommit⟩ :=
    Planner.plan_of_arranged (workflow_drafted 1).arranged (by simp [workflow]) planner
  · obtain ⟨attempt, hattempt⟩ := List.exists_mem_of_ne_nil _ hattempts.choose_spec.ne_nil
    have hmeets := (meets_iff (by simp) hmetrics hattempts hattempt).2 rfl
    exact absurd hmeets (hfail.2 attempt hattempt)
  · obtain ⟨attempt, -, -, progress, hplan⟩ := hcommit
    exact ⟨_, congrArg Outcome.result hplan⟩

theorem planned_places : catalog.Drafted ∧ (workflow 1).Submitted ∧
    ∃ plan, planned.result = .ok plan ∧ plan.placements.length = 2 ∧
      ∀ job ∈ (workflow 1).jobs, ∃ placement, plan.placements[job.id]? = some placement ∧
        (∀ (place : Nat) (other : Placement (Exact ℚ)), plan.placements[place]? = some other →
          (other.job = job.id ↔ place = job.id)) ∧
        Plan.Places catalog settings.variant.profile.staging (workflow 1) plan.placements
          planned.planner.timelines planned.workflow job placement := by
  obtain ⟨plan, hplan⟩ := planned_ok
  have hstart : Planner.History catalog settings Workflow.Submitted [] planner :=
    .start planner.generator
  exact ⟨catalog_drafted, workflow_submitted 1, plan, hplan,
    Planner.plan_places catalog_drafted hstart (workflow_submitted 1) hplan⟩

end Chain

end WattPlan
