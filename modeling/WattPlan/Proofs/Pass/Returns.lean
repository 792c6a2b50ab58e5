import WattPlan.Proofs.Metrics
import WattPlan.Proofs.Pass.Completion
import WattPlan.Proofs.Placement.Integrals

/-!
# Passes that return

A pass computes its solution by one search after another, and it returns if each of them does: if
every integral of each search is found (`Pass.Returns`). Where this is so of all requests that can
be made on the way (`Problem.Priced`), as it is over exact quantities (`Problem.priced`), every pass
that has a solution returns it (`Pass.returns_of_run`). In floating point a pass need not return:
`LongRun.not_returns` is about one for a job that runs for `1e20` seconds.
-/

namespace WattPlan

variable {α : Type} [Scalar α]

/-- Every request that is made for a due job on the way from given timelines is priced. -/
def Problem.Priced (problem : Problem α) (timelines : Timelines α) : Prop :=
  ∀ pass job request, Pass.Reached problem timelines pass → job ∈ problem.workflow.jobs →
    pass.isDue job = true → pass.request problem job = .ok request → request.Priced

/-- Over exact quantities all requests are priced. -/
theorem Problem.priced {K : Type} [Field K] [LinearOrder K] [IsStrictOrderedRing K] [FloorRing K]
    [Exponentials K] (problem : Problem (Exact K)) (timelines : Timelines (Exact K)) :
    problem.Priced timelines :=
  fun _ _ request _ _ _ _ => request.priced

namespace Pass

variable {problem : Problem α} {timelines : Timelines α} {order : List JobId}
  {generator following : Generator} {turns : List (Turn α)} {pass : Pass α} {solution : Solution α}

/-- Where all requests are priced, those of turns are. -/
theorem Takes.priced (h : Takes problem timelines generator turns pass following)
    (hpriced : problem.Priced timelines) : ∀ turn ∈ turns, turn.request.Priced := by
  induction h with
  | start => simp
  | place turns pass turn htakes hjob hdue hrequest ih =>
      intro other hother
      rcases List.mem_append.1 hother with hother | hother
      · exact ih other hother
      · rw [List.mem_singleton.1 hother]
        exact hpriced pass turn.job turn.request htakes.reached hjob hdue hrequest

/-- The first turn is that of a job of the workflow, which is requested while nothing is placed. -/
theorem Takes.first (h : Takes problem timelines generator turns pass following) :
    turns = [] ∧ pass = Pass.start timelines ∨ ∃ turn ∈ turns,
      turn.job ∈ problem.workflow.jobs ∧
      (Pass.start timelines).request problem turn.job = .ok turn.request := by
  induction h with
  | start => exact .inl ⟨rfl, rfl⟩
  | place turns pass turn _ hjob _ hrequest ih =>
      right
      rcases ih with ⟨-, rfl⟩ | ⟨first, hfirst, hasked⟩
      · exact ⟨turn, List.mem_append_right _ List.mem_cons_self, hjob, hrequest⟩
      · exact ⟨first, List.mem_append_left _ hfirst, hasked⟩

/-- A run over an order returns a solution and leaves a generator: it takes turns to the pass of the
solution, and every integral of each turn is found. -/
structure Returns (problem : Problem α) (timelines : Timelines α) (order : List JobId)
    (generator : Generator) (solution : Solution α) (following : Generator) : Prop where
  run : (Pass.run problem timelines order).run generator = (.ok solution, following)
  turns : ∃ turns last, Takes problem timelines generator turns last following ∧
    last.solution problem.workflow = .ok solution ∧ ∀ turn ∈ turns, turn.request.Priced

/-- Where all requests are priced, a run that has a solution returns it. -/
theorem returns_of_run (harranged : problem.workflow.Arranged) (hpriced : problem.Priced timelines)
    (hrun : (Pass.run problem timelines order).run generator = (.ok solution, following)) :
    Returns problem timelines order generator solution following := by
  obtain ⟨turns, last, htakes, -, hsolution, -⟩ := exists_takes_of_run harranged hrun
  exact ⟨hrun, turns, last, htakes, hsolution, htakes.priced hpriced⟩

end Pass

/-!
## A long job

A workflow of one job that runs for `1e20` seconds on a node with a speed of 1, at a site with 24
equal prices.
-/

namespace LongRun

def site : Site Float :=
  ⟨0, "lab", tariff⟩

def node : Node Float :=
  ⟨0, "board", site, ⟨1, 1, 0⟩, []⟩

def catalog : Catalog Float :=
  ⟨[site], [node], .unlimited, List.cons_ne_nil _ _⟩

def job : Job Float :=
  ⟨0, "sort", 1e20, 0, [], [], [], [], [], none⟩

def workflow : Workflow Float :=
  ⟨1, "long", 0, none, none, [job]⟩

theorem catalog_drafted : catalog.Drafted :=
  ⟨_, .unlimited, Scalar.infinity, Scalar.infinity, CatalogDraft.Drawn.empty.perform
    [.site "lab" (List.replicate 24 1), .node "board" 0 [⟨1, 1, 0⟩]], rfl, rfl⟩

theorem workflow_drafted : workflow.Drafted := by
  refine ⟨_, (WorkflowDraft.Drawn.empty 1 "long" 0 none).perform [.job "sort" 1e20], ?_⟩
  with_unfolding_all rfl

/-- The run of the job on the idle node from 0 on is billed. -/
theorem bills_run {request : Request Float} (htimelines : request.timelines = .idle 1)
    (hjob : request.job = job) (hready : request.readyTime node = 0) :
    request.Bills node 0 1e20 := by
  have hrun : request.Bills node _ _ := .run (node.fastest, 0) List.mem_cons_self
  have hstart :
      (request.evaluate node (request.readyTime node) (node.fastest, 0)).start = 0 := by
    show (request.timelines.ofNode 0).probe (request.job.length / 1) (request.readyTime node) = 0
    rw [htimelines, hjob, hready]
    exact Binary64.word_injective (by decide +kernel)
  have hfinish :
      (request.evaluate node (request.readyTime node) (node.fastest, 0)).finish = 1e20 := by
    show (request.evaluate node (request.readyTime node) (node.fastest, 0)).start +
      request.job.length / 1 = 1e20
    rw [hstart, hjob]
    exact Binary64.word_injective (by decide +kernel)
  rwa [hstart, hfinish] at hrun

/-- So is it in every pass that begins with an idle node. -/
theorem bills_first {problem : Problem Float} (hworkflow : problem.workflow = workflow)
    (hmetrics : problem.metrics.Fits workflow catalog) {request : Request Float}
    (hrequest : (Pass.start (.idle 1)).request problem job = .ok request) :
    request.Bills node 0 1e20 := by
  have hstaging : problem.metrics.stagingTime job.id node.id = catalog.stagingTime job node :=
    hmetrics.stagingTime_eq rfl rfl
  cases hrequest
  refine bills_run rfl rfl ?_
  show problem.workflow.submittedAt + problem.metrics.stagingTime job.id node.id = 0
  rw [hworkflow, hstaging]
  exact Binary64.word_injective (by decide +kernel)

/-- No pass over the workflow from an idle node returns. -/
theorem not_returns {problem : Problem Float} (hworkflow : problem.workflow = workflow)
    (hcatalog : problem.catalog = catalog) (hmetrics : problem.metrics.Fits workflow catalog)
    {order : List JobId} {generator following : Generator} {solution : Solution Float} :
    ¬ Pass.Returns problem (.idle 1) order generator solution following := by
  rintro ⟨-, turns, last, htakes, hsolution, hpriced⟩
  rcases htakes.first with ⟨-, rfl⟩ | ⟨turn, hturn, hjob, hrequest⟩
  · rw [hworkflow] at hsolution
    cases hsolution
  · rw [hworkflow] at hjob
    rw [List.mem_singleton.1 hjob] at hrequest
    have hnode : node ∈ turn.request.problem.catalog.nodes := by
      rw [(Pass.asks_of_request hrequest).1.problem_eq, hcatalog]
      exact List.mem_cons_self
    have hsome := hpriced turn hturn tariff _ _
      (.bill node _ _ hnode (bills_first hworkflow hmetrics hrequest))
    rw [priceSeconds?_eq_none] at hsome
    cases hsome

end LongRun

end WattPlan
