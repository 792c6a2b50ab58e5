import WattPlan.Proofs.Deadline
import WattPlan.Proofs.LocalSearch.Records
import WattPlan.Proofs.Planner.Calls
import WattPlan.Proofs.Planner.Failure
import WattPlan.Proofs.Samples

/-!
# Planning is total

A call with a drafted workflow returns a plan, or says that the workflow has no jobs, or that it is
infeasible; no other fault is met, and where all requests are priced, every pass returns. On the way
every lookup of a job, a node, a site, a power level, a timeline or an entry of a table finds what it
looks for, and no default stands in for it: `Problem.InRange` says this of what planning starts from,
`LocalSearch.InRange` of the perturbations, and `Pass.InRange` of every pass that planning can come
to. The main result is `plan_total`.
-/

namespace WattPlan

variable {α : Type} [Scalar α]

/-- The estimate of a job on a node at a level, looked up in the table of all estimates. -/
def Workflow.estimate? (workflow : Workflow α) (catalog : Catalog α) (job : JobId) (node : NodeId)
    (level : Nat) : Option (Estimate α) :=
  ((workflow.estimates catalog)[job]?).bind fun rows =>
    (rows[node]?).bind fun levels => levels[level]?

/-- Every lookup in what planning a workflow starts from finds an entry. -/
structure Problem.InRange (problem : Problem α) : Prop where
  job : ∀ job ∈ problem.workflow.jobs, problem.workflow.job? job.id = some job
  neighbour : ∀ job ∈ problem.workflow.jobs, ∀ id ∈ job.parents ++ job.children,
    (problem.workflow.job? id).isSome
  location : ∀ job ∈ problem.workflow.jobs, ∀ input ∈ job.storedInputs, ∀ node ∈ input.location,
    (problem.catalog.node? node).isSome
  node : ∀ node ∈ problem.catalog.nodes, problem.catalog.node? node.id = some node
  site : ∀ node ∈ problem.catalog.nodes, problem.catalog.sites[node.site.id]? = some node.site
  worth : ∀ site ∈ problem.catalog.sites, problem.siteWorth[site.id]? = some (problem.worth site)
  estimate : ∀ job ∈ problem.workflow.jobs, ∀ node ∈ problem.catalog.nodes, ∀ level place,
    node.levels[place]? = some level →
      problem.workflow.estimate? problem.catalog job.id node.id place =
        some (level.estimate job.length)
  staging : ∀ job ∈ problem.workflow.jobs, ∀ node ∈ problem.catalog.nodes,
    (problem.metrics.staging[job.id]?).bind (fun row => row[node.id]?) =
      some (problem.metrics.stagingTime job.id node.id)
  transfers : ∀ job ∈ problem.workflow.jobs, ∃ row, problem.metrics.transfers[job.id]? = some row ∧
    row.length = job.parents.length
  meanStaging : ∀ job ∈ problem.workflow.jobs,
    problem.metrics.meanStaging[job.id]? = some (problem.metrics.meanStaging.getD job.id 0)
  earliestFinish : ∀ job ∈ problem.workflow.jobs,
    problem.metrics.earliestFinishes[job.id]? = some (problem.metrics.earliestFinish job.id)
  upwardRank : ∀ job ∈ problem.workflow.jobs,
    problem.metrics.upwardRanks[job.id]? = some (problem.metrics.upwardRank job.id)
  downwardRank : ∀ job ∈ problem.workflow.jobs,
    problem.metrics.downwardRanks[job.id]? = some (problem.metrics.downwardRank job.id)
  subDeadline : ∀ job ∈ problem.workflow.jobs,
    problem.deadlines.subDeadlines[job.id]? = some (problem.deadlines.subDeadline job.id)
  levelled : ∀ id ∈ problem.workflow.depthOrder, ∃ job, problem.workflow.job? id = some job ∧
    ∀ entry ∈ id :: job.parents, entry < problem.deadlines.subDeadlines.length
  ranked : ∀ id ∈ problem.metrics.byUpwardRank problem.workflow,
    id < problem.deadlines.subDeadlines.length
  counted : ∀ node ∈ problem.catalog.nodes, node.site.id < problem.catalog.sites.length

/-- Every lookup in a perturbation finds an entry: the picked groups, and the two members that are
drawn of a group. The place of the second one may be moved up by one. -/
structure LocalSearch.InRange (search : LocalSearch α) : Prop where
  picked : ∀ count generator, ∀ place ∈ ((Generator.sample search.groups.length
    (min count search.groups.length)).run generator).1, place < search.groups.length
  first : ∀ group ∈ search.groups, 2 ≤ group.length → ∀ generator,
    ((Generator.below group.length).run generator).1 < group.length
  second : ∀ group ∈ search.groups, 2 ≤ group.length → ∀ generator,
    ((Generator.below (group.length - 1)).run generator).1 + 1 < group.length

/-- Every lookup in a pass finds an entry: the timeline of each node; the job, the node and the
level of each placement; the places of each placed job and its parents, when the order is checked;
and for each due job what its request and the candidates for it look up. -/
structure Pass.InRange (pass : Pass α) (problem : Problem α) : Prop where
  timeline : ∀ node ∈ problem.catalog.nodes,
    pass.timelines.nodes[node.id]? = some (pass.timelines.ofNode node.id)
  placed : ∀ placement ∈ pass.placed, (problem.workflow.job? placement.job).isSome ∧
    problem.catalog.node? placement.node.id = some placement.node ∧
    placement.level < placement.node.levels.length
  checked : ∀ id ∈ pass.commitOrder, ∃ job, problem.workflow.job? id = some job ∧
    ∀ entry ∈ id :: job.parents,
      entry < (Pass.placesIn problem.workflow.jobs.length pass.commitOrder).size
  request : ∀ job ∈ problem.workflow.jobs, pass.isDue job = true →
    ∃ request, pass.request problem job = .ok request ∧
      ∀ candidate, request.Offers candidate →
        problem.catalog.node? candidate.node.id = some candidate.node ∧
        pass.timelines.nodes[candidate.node.id]? =
          some (pass.timelines.ofNode candidate.node.id) ∧
        candidate.level < candidate.node.levels.length

/-- A lookup below the length of a list finds the entry that is given otherwise a default. -/
theorem getElem?_eq_getD {β : Type} {xs : List β} {place : Nat} (h : place < xs.length)
    (otherwise : β) : xs[place]? = some (xs.getD place otherwise) := by
  rw [List.getD_eq_getElem?_getD, List.getElem?_eq_getElem h]
  rfl

omit [Scalar α] in
/-- The jobs of an arranged workflow and their parents have entries in a table of all jobs. -/
theorem Workflow.Arranged.entries_lt {workflow : Workflow α} (h : workflow.Arranged) {id : JobId}
    (hid : id ∈ workflow.jobIds) : ∃ job, workflow.job? id = some job ∧
      ∀ entry ∈ id :: job.parents, entry < workflow.jobs.length := by
  obtain ⟨job, hjob, rfl⟩ := List.mem_map.1 hid
  refine ⟨job, h.job?_id hjob, List.forall_mem_cons.2 ⟨h.mem_jobIds.1 hid, fun parent hparent => ?_⟩⟩
  obtain ⟨writer, hfound, -⟩ := h.parent hjob hparent
  exact (List.getElem?_eq_some_iff.1 hfound).1

omit [Scalar α] in
/-- Every lookup in a perturbation finds an entry. -/
theorem LocalSearch.inRange (search : LocalSearch α) : search.InRange where
  picked := fun _ generator => (Generator.sample_yields (Nat.min_le_right _ _) generator).lt
  first := fun _ _ hlength generator =>
    Generator.below_yields (Nat.zero_lt_of_lt hlength) generator
  second := fun _ _ hlength generator => by
    have hlt := Generator.below_yields (Nat.sub_pos_of_lt hlength) generator
    omega

namespace Pass

variable {problem : Problem α} {timelines : Timelines α} {pass : Pass α}

/-- The table of places has an entry for each job. -/
theorem size_placesIn (jobs : Nat) (order : List JobId) : (placesIn jobs order).size = jobs := by
  have hkept : ∀ (note : Array Nat → JobId × Nat → Array Nat),
      (∀ places entry, (note places entry).size = places.size) →
      ∀ (listed : List (JobId × Nat)) (places : Array Nat),
        (listed.foldl note places).size = places.size := by
    intro note hnote listed
    induction listed with
    | nil => exact fun _ => rfl
    | cons head rest ih => exact fun places => (ih _).trans (hnote places head)
  rw [placesIn, hkept _ fun _ _ => Array.size_setIfInBounds .., Array.size_replicate]

/-- Every lookup in a pass that is reached finds an entry. -/
theorem Reached.inRange (h : Reached problem timelines pass) (hcatalog : problem.catalog.Drafted)
    (harranged : problem.workflow.Arranged)
    (hlength : timelines.nodes.length = problem.catalog.nodes.length) : pass.InRange problem := by
  have htimeline : ∀ node ∈ problem.catalog.nodes,
      pass.timelines.nodes[node.id]? = some (pass.timelines.ofNode node.id) := by
    intro node hnode
    have hlt : node.id < pass.timelines.nodes.length := by
      rw [h.length_timelines, hlength]
      exact hcatalog.id_lt hnode
    rw [Timelines.ofNode, List.getElem?_eq_getElem hlt]
    rfl
  have hoffers : ∀ {job request candidate}, pass.Asks problem job request →
      request.Offers candidate → candidate.node ∈ problem.catalog.nodes ∧
        candidate.level < candidate.node.levels.length := by
    rintro job request candidate hasks ⟨node, hnode, ⟨level, place⟩, hchoice, rfl⟩
    rw [hasks.problem_eq] at hnode
    exact ⟨hnode, (List.getElem?_eq_some_iff.1 (List.mk_mem_zipIdx_iff_getElem?.1 hchoice)).1⟩
  constructor
  case timeline => exact htimeline
  case placed =>
    intro placement hplacement
    obtain ⟨-, job, request, hjob, hasks, hoffer⟩ :=
      h.accounts hcatalog harranged hlength placement hplacement
    obtain ⟨hnode, hlevel⟩ := hoffers hasks hoffer
    exact ⟨by rw [hjob]; rfl, hcatalog.node?_id hnode, hlevel⟩
  case checked =>
    intro id hid
    rw [size_placesIn]
    exact harranged.entries_lt (h.mem_jobIds id hid)
  case request =>
    intro job hjob hdue
    obtain ⟨request, hrequest⟩ := request_of_isDue harranged hjob hdue
    refine ⟨request, hrequest, fun candidate hoffer => ?_⟩
    obtain ⟨hnode, hlevel⟩ := hoffers (asks_of_request hrequest).1 hoffer
    exact ⟨hcatalog.node?_id hnode, htimeline _ hnode, hlevel⟩

end Pass

namespace Planner

variable {catalog : Catalog α} {settings : Settings α} {kind : Workflow α → Prop}
  {plans : List (Plan α)} {planner : Planner α} {workflow : Workflow α} {metrics : Metrics α}

/-- A planner has a timeline for each node after every history of calls. -/
theorem History.length_timelines (h : History catalog settings kind plans planner)
    (hkind : ∀ workflow, kind workflow → workflow.Arranged) :
    planner.timelines.nodes.length = catalog.nodes.length := by
  refine h.preserves (P := fun _ planner =>
    planner.timelines.nodes.length = catalog.nodes.length) hkind ?_ ?_ ?_
  · exact fun _ => List.length_replicate
  · exact fun _ _ _ ih => ih
  · exact fun _ _ _ _ _ _ ih _ _ _ hsolves _ => hsolves.length_timelines.trans ih

/-- Every lookup in what planning a workflow starts from finds an entry. -/
theorem problemOf_inRange (hcatalog : planner.catalog.Drafted) (harranged : workflow.Arranged)
    (hfits : metrics.Fits workflow planner.catalog)
    (hlocated : ∀ job ∈ workflow.jobs, ∀ input ∈ job.storedInputs, ∀ node ∈ input.location,
      node < planner.catalog.nodes.length) : (planner.problemOf workflow metrics).InRange := by
  have hid : ∀ job ∈ workflow.jobs, job.id < workflow.jobs.length := fun job hjob =>
    harranged.mem_jobIds.1 (List.mem_map_of_mem hjob)
  have hlength : (planner.problemOf workflow metrics).deadlines.subDeadlines.length =
      workflow.jobs.length := DeadlinePlan.length_subDeadlines _ _ _
  constructor
  case job => exact fun job hjob => harranged.job?_id hjob
  case neighbour =>
    intro job hjob id hmem
    rcases List.mem_append.1 hmem with hparent | hchild
    · obtain ⟨parent, hfound, -⟩ := harranged.parent hjob hparent
      exact Option.isSome_iff_exists.2 ⟨parent, hfound⟩
    · obtain ⟨child, hfound, -⟩ := harranged.child hjob hchild
      exact Option.isSome_iff_exists.2 ⟨child, hfound⟩
  case location =>
    intro job hjob input hinput node hnode
    have hlt := hlocated job hjob input hinput node hnode
    exact Option.isSome_iff_exists.2 ⟨_, List.getElem?_eq_getElem hlt⟩
  case node => exact fun node hnode => hcatalog.node?_id hnode
  case site => exact fun node hnode => hcatalog.node_site hnode
  case worth =>
    intro site hsite
    obtain ⟨place, hplace⟩ := List.mem_iff_getElem?.1 hsite
    refine getElem?_eq_getD ?_ 0
    rw [hcatalog.site_id hplace]
    simpa [problemOf] using (List.getElem?_eq_some_iff.1 hplace).1
  case estimate =>
    intro job hjob node hnode level place hlevel
    have hfoundjob := harranged.job?_id hjob
    have hfoundnode := hcatalog.node?_id hnode
    rw [Workflow.job?] at hfoundjob
    rw [Catalog.node?] at hfoundnode
    simp [problemOf, Workflow.estimate?, Workflow.estimates, hfoundjob, hfoundnode, hlevel]
  case staging =>
    intro job hjob node hnode
    have hfoundjob := harranged.job?_id hjob
    have hfoundnode := hcatalog.node?_id hnode
    show (metrics.staging[job.id]?).bind _ = some (metrics.stagingTime job.id node.id)
    rw [hfits.stagingTime_eq hfoundjob hfoundnode, hfits.staging]
    rw [Workflow.job?] at hfoundjob
    rw [Catalog.node?] at hfoundnode
    simp [hfoundjob, hfoundnode]
  case transfers =>
    intro job hjob
    have hlength : (metrics.transfers.map List.length)[job.id]? = some job.parents.length := by
      have hfound := harranged.job?_id hjob
      rw [Workflow.job?] at hfound
      rw [hfits.transfers_length, List.getElem?_map, hfound]
      rfl
    rw [List.getElem?_map] at hlength
    exact Option.map_eq_some_iff.1 hlength
  case meanStaging =>
    exact fun job hjob => getElem?_eq_getD (hfits.meanStaging_length ▸ hid job hjob) 0
  case earliestFinish =>
    exact fun job hjob => getElem?_eq_getD (hfits.earliestFinishes ▸ hid job hjob) 0
  case upwardRank =>
    exact fun job hjob => getElem?_eq_getD (hfits.upwardRanks ▸ hid job hjob) 0
  case downwardRank =>
    exact fun job hjob => getElem?_eq_getD (hfits.downwardRanks ▸ hid job hjob) 0
  case subDeadline =>
    intro job hjob
    refine getElem?_eq_getD ?_ 0
    rw [hlength]
    exact hid job hjob
  case levelled =>
    intro id hmem
    rw [hlength]
    exact harranged.entries_lt (workflow.depthOrder_perm.mem_iff.1 hmem)
  case ranked =>
    intro id hmem
    rw [hlength]
    exact harranged.mem_jobIds.1 ((List.mergeSort_perm _ _).mem_iff.1 hmem)
  case counted =>
    exact fun node hnode => (List.getElem?_eq_some_iff.1 (hcatalog.node_site hnode)).1

/-- A call with an arranged workflow comes to a plan, or finds that there are no jobs, just when
there are none, or finds the workflow infeasible. -/
theorem plan_result (harranged : workflow.Arranged) (planner : Planner α) :
    ((∃ plan, (planner.plan workflow).result = .ok plan) ∨
      ∃ fault, (planner.plan workflow).result = .error fault ∧
        (fault.IsEmpty ∨ fault.IsInfeasible)) ∧
    ((∃ fault, (planner.plan workflow).result = .error fault ∧ fault.IsEmpty) ↔
      workflow.jobs = []) := by
  by_cases hne : workflow.jobs = []
  · have hplan := planner.plan_of_jobs_eq_nil hne
    have hempty : ∃ fault, (planner.plan workflow).result = .error fault ∧ fault.IsEmpty :=
      ⟨_, by rw [hplan], _, rfl⟩
    obtain ⟨fault, hfault, hkind⟩ := hempty
    exact ⟨.inr ⟨fault, hfault, .inl hkind⟩, fun _ => hne, fun _ => ⟨fault, hfault, hkind⟩⟩
  · obtain ⟨metrics, attempts, generator, -, -, -, -, hfail | hcommit⟩ :=
      plan_of_arranged harranged hne planner
    · have hinfeasible := planner.infeasibleFault_isInfeasible workflow metrics
      refine ⟨.inr ⟨_, by rw [hfail.1], .inr hinfeasible⟩, ?_, fun h => absurd h hne⟩
      rintro ⟨fault, hfault, hempty⟩
      rw [hfail.1] at hfault
      cases hfault
      exact absurd hinfeasible hempty.not_isInfeasible
    · obtain ⟨attempt, -, -, progress, hplan⟩ := hcommit
      refine ⟨.inl ⟨_, by rw [hplan]⟩, ?_, fun h => absurd h hne⟩
      rintro ⟨fault, hfault, -⟩
      rw [hplan] at hfault
      cases hfault

/-- The search for an arranged workflow makes the same attempts whenever it is run from a generator.
Each of them is over an order of all jobs, and where all requests are priced, it returns. -/
theorem exists_attempts (harranged : workflow.Arranged) (metrics : Metrics α)
    (hpriced : (planner.problemOf workflow metrics).Priced planner.timelines) :
    ∃ attempts,
      (∀ others, (planner.searchOf workflow metrics).Attempts planner.generator others ↔
        others = attempts) ∧
      ∀ attempt ∈ attempts, attempt.order.Perm (List.range workflow.jobs.length) ∧
        ∃ generator following, Pass.Returns (planner.problemOf workflow metrics)
          planner.timelines attempt.order generator attempt.solution following := by
  obtain ⟨last, following, attempts, -, htries, -⟩ := search_ok harranged planner metrics
  refine ⟨attempts, fun others => ⟨fun ⟨_, hothers⟩ => (hothers.unique htries).1,
    fun heq => heq ▸ ⟨last, htries⟩⟩, fun attempt hattempt => ?_⟩
  obtain ⟨before, after, hrun⟩ := htries.run_of_mem attempt hattempt
  exact ⟨attempts_perm harranged metrics ⟨last, htries⟩ attempt hattempt, before, after,
    Pass.returns_of_run harranged hpriced hrun⟩

/-- A call with a drafted workflow whose requests are all priced returns a plan, or finds that there
are no jobs, just when there are none, or finds the workflow infeasible. Its metrics are found. Every
lookup in what planning starts from, in its perturbations and in every pass that it can come to finds
an entry. Every order that the search tries is one of all jobs, and every attempt returns. -/
theorem plan_total (hcatalog : catalog.Drafted)
    (h : History catalog settings Workflow.Drafted plans planner) (hworkflow : workflow.Drafted)
    (hlocated : ∀ job ∈ workflow.jobs, ∀ input ∈ job.storedInputs, ∀ node ∈ input.location,
      node < catalog.nodes.length)
    (hpriced : ∀ metrics, planner.metricsOf workflow = .ok metrics →
      (planner.problemOf workflow metrics).Priced planner.timelines) :
    ((∃ plan, (planner.plan workflow).result = .ok plan) ∨
      ∃ fault, (planner.plan workflow).result = .error fault ∧
        (fault.IsEmpty ∨ fault.IsInfeasible)) ∧
    ((∃ fault, (planner.plan workflow).result = .error fault ∧ fault.IsEmpty) ↔
      workflow.jobs = []) ∧
    ∃ metrics attempts, planner.metricsOf workflow = .ok metrics ∧
      (planner.problemOf workflow metrics).InRange ∧
      (planner.searchOf workflow metrics).InRange ∧
      (∀ pass, Pass.Reached (planner.problemOf workflow metrics) planner.timelines pass →
        pass.InRange (planner.problemOf workflow metrics)) ∧
      (∀ others, (planner.searchOf workflow metrics).Attempts planner.generator others ↔
        others = attempts) ∧
      ∀ attempt ∈ attempts, attempt.order.Perm (List.range workflow.jobs.length) ∧
        ∃ generator following, Pass.Returns (planner.problemOf workflow metrics)
          planner.timelines attempt.order generator attempt.solution following := by
  obtain ⟨rfl, -⟩ := h.setup
  have harranged := hworkflow.arranged
  have hlength := h.length_timelines fun _ hkind => hkind.arranged
  obtain ⟨hresult, hempty⟩ := plan_result harranged planner
  obtain ⟨metrics, hmetrics, hfits⟩ := Metrics.ofWorkflow_eq_ok harranged planner.catalog
    planner.profile.averaging planner.profile.speed
  obtain ⟨attempts, hattempts, hreturns⟩ :=
    exists_attempts harranged metrics (hpriced metrics hmetrics)
  exact ⟨hresult, hempty, metrics, attempts, hmetrics,
    problemOf_inRange hcatalog harranged hfits hlocated, LocalSearch.inRange _,
    fun pass hreached => hreached.inRange hcatalog harranged hlength, hattempts, hreturns⟩

end Planner

namespace Chain

/-- After a call with the chain, a call with a chain that is to be more reliable. Its stored input
is at a node of the catalog. -/
theorem second_call_total : catalog.Drafted ∧ (workflow 4).Drafted ∧
    (∀ job ∈ (workflow 4).jobs, ∀ input ∈ job.storedInputs, ∀ node ∈ input.location,
      node < catalog.nodes.length) ∧
    ((∃ plan, ((planner.plan (workflow 1)).planner.plan (workflow 4)).result = .ok plan) ∨
      ∃ fault, ((planner.plan (workflow 1)).planner.plan (workflow 4)).result = .error fault ∧
        fault.IsInfeasible) ∧
    ∃ metrics attempts,
      (planner.plan (workflow 1)).planner.metricsOf (workflow 4) = .ok metrics ∧
      ((planner.plan (workflow 1)).planner.problemOf (workflow 4) metrics).InRange ∧
      ((planner.plan (workflow 1)).planner.searchOf (workflow 4) metrics).Attempts
        (planner.plan (workflow 1)).planner.generator attempts ∧
      ∀ attempt ∈ attempts, ∃ generator following,
        Pass.Returns ((planner.plan (workflow 1)).planner.problemOf (workflow 4) metrics)
          (planner.plan (workflow 1)).planner.timelines attempt.order generator attempt.solution
          following := by
  have hstart : Planner.History catalog settings Workflow.Drafted [] planner :=
    .start planner.generator
  have hplanned := hstart.call _ _ (workflow 1) (workflow_drafted 1)
  have hlocated : ∀ job ∈ (workflow 4).jobs, ∀ input ∈ job.storedInputs, ∀ node ∈ input.location,
      node < catalog.nodes.length := by
    simp [workflow, catalog]
  obtain ⟨hanswer, hempty, metrics, attempts, hmetrics, hinrange, -, -, hattempts, hreturns⟩ :=
    Planner.plan_total catalog_drafted hplanned (workflow_drafted 4) hlocated
      fun _ _ => Problem.priced _ _
  refine ⟨catalog_drafted, workflow_drafted 4, hlocated, ?_, metrics, attempts, hmetrics, hinrange,
    (hattempts attempts).2 rfl, fun attempt hattempt => (hreturns attempt hattempt).2⟩
  rcases hanswer with hplan | ⟨fault, hfault, hnone | hinfeasible⟩
  · exact .inl hplan
  · exact absurd (hempty.1 ⟨fault, hfault, hnone⟩) (by simp [workflow])
  · exact .inr ⟨fault, hfault, hinfeasible⟩

end Chain

namespace LongRun

/-- The first call with the long job makes at least one attempt, and none of its attempts returns. -/
theorem call_never_returns : catalog.Drafted ∧ workflow.Drafted ∧
    (∀ job ∈ workflow.jobs, ∀ input ∈ job.storedInputs, ∀ node ∈ input.location,
      node < catalog.nodes.length) ∧
    ∃ metrics attempts, (planner .dews).metricsOf workflow = .ok metrics ∧
      ((planner .dews).searchOf workflow metrics).Attempts (planner .dews).generator attempts ∧
      attempts ≠ [] ∧ ∀ attempt ∈ attempts, ∀ generator following,
        ¬ Pass.Returns ((planner .dews).problemOf workflow metrics) (planner .dews).timelines
          attempt.order generator attempt.solution following := by
  obtain ⟨metrics, hmetrics, hfits⟩ := Metrics.ofWorkflow_eq_ok workflow_drafted.arranged catalog
    (planner .dews).profile.averaging (planner .dews).profile.speed
  obtain ⟨last, following, attempts, -, htries, -⟩ :=
    Planner.search_ok workflow_drafted.arranged (planner .dews) metrics
  exact ⟨catalog_drafted, workflow_drafted, by simp [workflow, job], metrics, attempts, hmetrics,
    ⟨last, htries⟩, htries.ne_nil, fun _ _ _ _ => not_returns rfl rfl hfits⟩

end LongRun

end WattPlan
