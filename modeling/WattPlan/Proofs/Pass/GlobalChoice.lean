import WattPlan.Proofs.Pass.Sweeps
import WattPlan.Proofs.Placement.Preference

/-!
# Variants that choose among all nodes

Two variants search all nodes of all sites at their fastest level. The best candidate is kept
inside each site and then among the sites; that is the best one in a single row of all nodes
(`Request.searchSites_eq_flat`), so it is a least feasible candidate in whatever order the sites
are visited, and there is none just if no node is feasible (`Request.searchSites_isLeastFeasible`).
A job whose parents are placed is placed at such a candidate without a draw, and on a node by
chance only where no node is feasible (`Pass.place_globally`).
-/

namespace WattPlan

open Draw

variable {α : Type} [Scalar α]

namespace Candidate

/-- Candidates in the order of their finish, and of their cost where that is equal. -/
def byFinish (a b : Candidate α) : Ordering :=
  (Scalar.totalOrder a.finish b.finish).then (Scalar.totalOrder a.cost b.cost)

/-- Candidates in the order of their cost, and of their finish where that is equal. -/
def byCost (a b : Candidate α) : Ordering :=
  (Scalar.totalOrder a.cost b.cost).then (Scalar.totalOrder a.finish b.finish)

end Candidate

/-- The variants that search all nodes of all sites, with the order in which they prefer
candidates. -/
inductive Variant.SearchesAll : Variant → (Candidate α → Candidate α → Ordering) → Prop where
  | heft : SearchesAll .heft Candidate.byFinish
  | ecwsd : SearchesAll .ecwsd Candidate.byCost

namespace Request

variable {request : Request α} {order : Candidate α → Candidate α → Ordering}
  {sites : List (Site α)} {node : Node α}

/-- Some node of the catalog is feasible at its fastest level. -/
def HasFeasible (request : Request α) : Prop :=
  ∃ node ∈ request.problem.catalog.nodes, request.feasible (request.evaluateFastest node) = true

/-- A candidate is the fastest level of a node and feasible, and none of the nodes that are feasible
at their fastest level comes before it in an order. -/
structure IsLeastFeasible (request : Request α) (order : Candidate α → Candidate α → Ordering)
    (candidate : Candidate α) : Prop where
  fastest : ∃ node ∈ request.problem.catalog.nodes, candidate = request.evaluateFastest node
  feasible : request.feasible candidate = true
  least : ∀ node ∈ request.problem.catalog.nodes,
    request.feasible (request.evaluateFastest node) = true →
      (order candidate (request.evaluateFastest node)).isLE = true

/-- A node that is searched at its fastest level alone has that candidate, if it is feasible. -/
theorem mem_tryNode_iff (hlevel : request.problem.profile.levelSearch = .fastestOnly)
    {candidate : Candidate α} : candidate ∈ request.tryNode node ↔
      candidate = request.evaluateFastest node ∧ request.feasible candidate = true := by
  rw [tryNode, hlevel]
  simp only [Option.mem_filter_iff, Option.mem_some, eq_comm]

/-- The nodes of a site that are searched in the order of the catalog are those at the site. -/
theorem nodesOf_asListed (hlisted : request.problem.profile.nodeOrdering = .asListed)
    (site : Site α) : request.nodesOf site = request.problem.catalog.nodesAt site.id := by
  rw [nodesOf, hlisted]

section Order

variable [Std.TransCmp (Scalar.totalOrder : α → α → Ordering)]

/-- Searching all nodes site by site is searching them in one row. -/
theorem searchSites_eq_flat (hselection : request.problem.profile.nodeSelection = .allNodes)
    (sites : List (Site α)) :
    request.searchSites sites = ((sites.flatMap request.nodesOf).map request.tryNode).foldl
      request.objective.keepBetter none := by
  have hsite : request.searchSite = fun site =>
      ((request.nodesOf site).map request.tryNode).foldl request.objective.keepBetter none := by
    funext site
    rw [searchSite, hselection]
  rw [searchSites, hsite, List.flatMap_def, List.map_flatten, List.map_map,
    ← Objective.foldl_keepBetter_flatten, List.map_map]
  rfl

/-- Over sites with all nodes the search finds a least feasible candidate, and none just if no node
is feasible. -/
theorem searchSites_isLeastFeasible
    (hselection : request.problem.profile.nodeSelection = .allNodes)
    (hlevel : request.problem.profile.levelSearch = .fastestOnly)
    (hall : ∀ node ∈ request.problem.catalog.nodes, node ∈ sites.flatMap request.nodesOf) :
    (∀ candidate ∈ request.searchSites sites,
      request.IsLeastFeasible request.objective.compare candidate) ∧
      (request.searchSites sites = none ↔ ¬ request.HasFeasible) := by
  have hcovers : ∀ node ∈ request.problem.catalog.nodes,
      request.objective.Covers (request.searchSites sites) (request.tryNode node) := by
    intro node hnode
    rw [searchSites_eq_flat hselection]
    exact (request.objective.foldl_keepBetter_covers none _).2 _
      (List.mem_map_of_mem (hall node hnode))
  have hfastest : ∀ candidate ∈ request.searchSites sites,
      (∃ node ∈ request.problem.catalog.nodes, candidate = request.evaluateFastest node) ∧
        request.feasible candidate = true :=
    searchSites_of_tryNode fun node hnode candidate hcandidate =>
      ⟨⟨node, hnode, ((mem_tryNode_iff hlevel).1 hcandidate).1⟩,
        ((mem_tryNode_iff hlevel).1 hcandidate).2⟩
  refine ⟨fun candidate hcandidate => ?_, fun hnone => ?_, fun hnot => ?_⟩
  · obtain ⟨hnode, hfeasible⟩ := hfastest candidate hcandidate
    exact ⟨hnode, hfeasible, fun node hnode hother =>
      (hcovers node hnode).isLE hcandidate ((mem_tryNode_iff hlevel).2 ⟨rfl, hother⟩)⟩
  · rintro ⟨node, hnode, hfeasible⟩
    have hcover := hcovers node hnode
    rw [hnone] at hcover
    have hmem := (mem_tryNode_iff hlevel).2 ⟨rfl, hfeasible⟩
    rw [hcover.eq_none] at hmem
    cases hmem
  · refine Option.eq_none_iff_forall_not_mem.2 fun candidate hcandidate => hnot ?_
    obtain ⟨⟨node, hnode, rfl⟩, hfeasible⟩ := hfastest candidate hcandidate
    exact ⟨node, hnode, hfeasible⟩

end Order

end Request

namespace Variant.SearchesAll

variable {variant : Variant} {order : Candidate α → Candidate α → Ordering} {request : Request α}

/-- A variant of this kind prefers candidates in its order. -/
theorem compare_eq (h : variant.SearchesAll order) : variant.profile.objective.compare = order := by
  cases h <;> rfl

/-- A variant of this kind looks at all nodes of a site, at their fastest level. -/
theorem nodes (h : variant.SearchesAll order) : variant.profile.nodeSelection = .allNodes ∧
    variant.profile.nodeOrdering = .asListed ∧ variant.profile.levelSearch = .fastestOnly := by
  cases h <;> exact ⟨rfl, rfl, rfl⟩

/-- A variant of this kind visits all sites that have nodes, and draws nothing for it. -/
theorem feasibleCandidate_eq (h : variant.SearchesAll order)
    (hprofile : request.problem.profile = variant.profile) :
    ∃ sites, sites.Perm request.sites ∧
      request.feasibleCandidate = pure (request.searchSites sites) := by
  unfold Request.feasibleCandidate
  rw [hprofile]
  cases h with
  | heft => exact ⟨request.sites, .refl _, rfl⟩
  | ecwsd => exact ⟨request.sitesByPrice, List.mergeSort_perm _ _, rfl⟩

end Variant.SearchesAll

namespace Request

variable [Std.TransCmp (Scalar.totalOrder : α → α → Ordering)] {request : Request α}
  {order : Candidate α → Candidate α → Ordering} {variant : Variant}

/-- In whatever order the sites with nodes are visited, the search over them finds a least feasible
candidate, and none just if no node is feasible. -/
theorem searchSites_of_perm (hcatalog : request.problem.catalog.Drafted)
    (hvariant : variant.SearchesAll order) (hprofile : request.problem.profile = variant.profile)
    {sites : List (Site α)} (hperm : sites.Perm request.sites) :
    (∀ candidate ∈ request.searchSites sites, request.IsLeastFeasible order candidate) ∧
      (request.searchSites sites = none ↔ ¬ request.HasFeasible) := by
  obtain ⟨hselection, hlisted, hlevel⟩ := hvariant.nodes
  rw [← hprofile] at hselection hlisted hlevel
  have hcompare : request.objective.compare = order := by
    rw [objective, hprofile, hvariant.compare_eq]
  rw [← hcompare]
  refine searchSites_isLeastFeasible hselection hlevel fun node hnode => ?_
  have hsite := hperm.mem_iff.2 (hcatalog.site_mem_populatedSites hnode)
  refine List.mem_flatMap.2 ⟨node.site, hsite, ?_⟩
  rw [nodesOf_asListed hlisted]
  exact Catalog.mem_nodesAt hnode

end Request

namespace Pass

variable {pass : Pass α} {problem : Problem α} {job : Job α} {request : Request α} {node : Node α}
  {order : Candidate α → Candidate α → Ordering} {generator following : Generator}

/-- Where the search comes to the fastest level of a node, the job is placed there. -/
theorem place_run_fastest (hrequest : pass.request problem job = .ok request)
    (hnode : node ∈ request.problem.catalog.nodes)
    (hsearch : request.search.run generator = (request.evaluateFastest node, following)) :
    (pass.place problem job).run generator =
      (.ok (pass.extend problem.workflow.id ⟨request.evaluateFastest node, job.id⟩),
        following) := by
  rw [place_run hrequest, hsearch,
    commit_eq_extend hrequest (Request.evaluateFastest_offered hnode)]

/-- A pass places a job by a choice among all nodes. If some node is feasible at its fastest level,
it is placed at a least feasible candidate from every generator, which stays as it was, and in
whatever order the sites are visited, they give such a candidate. The sites give no candidate just
if no node is feasible, and then the job is placed at the fastest level of a node that is drawn. -/
structure PlacesGlobally (pass : Pass α) (problem : Problem α) (job : Job α) (request : Request α)
    (order : Candidate α → Candidate α → Ordering) : Prop where
  chosen : request.HasFeasible → ∃ candidate, request.IsLeastFeasible order candidate ∧
    ∀ generator, (pass.place problem job).run generator =
      (.ok (pass.extend problem.workflow.id ⟨candidate, job.id⟩), generator)
  any_order : ∀ sites : List (Site α), sites.Perm problem.catalog.populatedSites →
    request.HasFeasible → ∃ candidate, request.searchSites sites = some candidate ∧
      request.IsLeastFeasible order candidate
  fallback_iff : ∀ generator, (request.feasibleCandidate.run generator).1 = none ↔
    ¬ request.HasFeasible
  fallback : ¬ request.HasFeasible → ∀ generator, ∃ node ∈ problem.catalog.nodes, ∃ following,
    request.randomNode.run generator = (node, following) ∧
      (pass.place problem job).run generator =
        (.ok (pass.extend problem.workflow.id ⟨request.evaluateFastest node, job.id⟩), following)

variable [Std.TransCmp (Scalar.totalOrder : α → α → Ordering)]

/-- A job whose parents are placed is placed by a choice among all nodes. -/
theorem place_globally (hcatalog : problem.catalog.Drafted) (hworkflow : problem.workflow.Drafted)
    {variant : Variant} (hvariant : variant.SearchesAll order)
    (hprofile : problem.profile = variant.profile) (hjob : job ∈ problem.workflow.jobs)
    (hparents : ∀ parent ∈ job.parents, pass.isPlaced parent = true) :
    ∃ request, pass.request problem job = .ok request ∧
      pass.PlacesGlobally problem job request order := by
  obtain ⟨request, hrequest⟩ := request_of_parents hworkflow.arranged hjob hparents
  obtain ⟨rfl, -, -, -⟩ := (asks_of_request hrequest).1
  refine ⟨request, hrequest, ?_⟩
  have hperm {sites : List (Site α)} (hsites : sites.Perm request.sites) :=
    Request.searchSites_of_perm hcatalog hvariant hprofile hsites
  have hlevel : request.problem.profile.levelSearch ≠ .random := by
    rw [hprofile, hvariant.nodes.2.2]
    decide
  have hsome : ∀ sites : List (Site α), sites.Perm request.sites → request.HasFeasible →
      ∃ candidate, request.searchSites sites = some candidate ∧
        request.IsLeastFeasible order candidate := by
    intro sites hsites hfeasible
    obtain ⟨hleast, hnone⟩ := hperm hsites
    obtain ⟨candidate, hcandidate⟩ :=
      Option.ne_none_iff_exists'.1 fun heq => hnone.1 heq hfeasible
    exact ⟨candidate, hcandidate, hleast candidate hcandidate⟩
  obtain ⟨visited, hvisited, hfound⟩ := hvariant.feasibleCandidate_eq hprofile
  constructor
  case chosen =>
    intro hfeasible
    obtain ⟨candidate, hcandidate, hleast⟩ := hsome visited hvisited hfeasible
    rw [hcandidate] at hfound
    refine ⟨candidate, hleast, fun generator => ?_⟩
    obtain ⟨node, hnode, rfl⟩ := hleast.fastest
    refine place_run_fastest hrequest hnode ?_
    rw [Request.search_eq_pure hlevel hfound]
    rfl
  case any_order => exact hsome
  case fallback_iff =>
    intro generator
    rw [hfound]
    exact (hperm hvisited).2
  case fallback =>
    intro hnot generator
    rw [(hperm hvisited).2.2 hnot] at hfound
    have hnode := request.randomNode_yields generator
    refine ⟨_, hnode, _, rfl, place_run_fastest hrequest hnode ?_⟩
    rw [Request.search_eq_fallback hlevel hfound, run_bind]
    rfl

end Pass

/-!
## A job after its parent

The first job of the fork is done in the second hour, when prices are lower in the south.
-/

namespace Fork

open Exact

def secondHour : Problem (Exact ℚ) where
  catalog
  workflow
  metrics := ⟨⟨finite 4, [[finite 3, finite 0], [finite 0, finite 0], [finite 0, finite 0]],
    [finite 2, finite 0, finite 0], [[], [finite 5], [finite 5]]⟩,
    [finite 4, finite 10, finite 11], [finite 11, finite 1, finite 2],
    [finite 0, finite 9, finite 9]⟩
  deadlines := ⟨finite 5, finite 11, finite 4000, [finite 3800, finite 4000, finite 4000]⟩
  budget := ⟨finite 1, finite 1, 3⟩
  profile := Variant.ecwsd.profile
  beta := finite 0
  maxSiteRetries := 0
  siteWorth := [finite 0, finite 0]

/-- The first job has run in the north, up to the time 3700. -/
def splitPlaced : Pass (Exact ℚ) where
  timelines := .idle 2
  placed := [⟨⟨⟨0, "even", north, ⟨finite 4, finite 300, finite 0⟩,
    [⟨finite 2, finite 120, finite 0⟩]⟩, 0, finite 3698, finite 3698, finite 3700, finite 8,
    finite 1⟩, 0⟩]

def left : Job (Exact ℚ) :=
  ⟨1, "left", finite 4, 1, [0], [], [], [⟨"data", finite 20, none⟩], [], none⟩

/-- The south is visited first, but the second job is placed in the north, where its data is. -/
theorem left_placed_globally : catalog.Drafted ∧ workflow.Drafted ∧ left ∈ workflow.jobs ∧
    (∀ parent ∈ left.parents, splitPlaced.isPlaced parent = true) ∧
    ∃ request candidate, splitPlaced.request secondHour left = .ok request ∧
      request.IsLeastFeasible Candidate.byCost candidate ∧ candidate.cost = finite (7 / 12000) ∧
      ∀ generator, (splitPlaced.place secondHour left).run generator =
        (.ok (splitPlaced.extend 3 ⟨candidate, 1⟩), generator) := by
  have hjob : left ∈ workflow.jobs := List.mem_cons_of_mem _ List.mem_cons_self
  have hparents : ∀ parent ∈ left.parents, splitPlaced.isPlaced parent = true := by decide
  obtain ⟨request, hrequest, hplaces⟩ : ∃ request, splitPlaced.request secondHour left =
      .ok request ∧ splitPlaced.PlacesGlobally secondHour left request Candidate.byCost :=
    Pass.place_globally catalog_drafted workflow_drafted .ecwsd rfl hjob hparents
  have hvalues : (splitPlaced.request secondHour left).toOption.map (fun request =>
      request.problem.catalog.nodes.map fun node =>
        ((request.evaluateFastest node).cost, request.feasible (request.evaluateFastest node))) =
          some [(finite (7 / 12000), true), (finite (7 / 3000), true)] := by
    decide +kernel
  simp only [hrequest, Except.toOption, Option.map_some, Option.some.injEq] at hvalues
  obtain ⟨north, hnorth, hcheap⟩ := List.mem_map.1 (hvalues ▸ List.mem_cons_self)
  obtain ⟨hcheap, hfeasible⟩ := Prod.mk.inj hcheap
  obtain ⟨candidate, hleast, hrun⟩ := hplaces.chosen ⟨north, hnorth, hfeasible⟩
  refine ⟨catalog_drafted, workflow_drafted, hjob, hparents, request, candidate, hrequest, hleast,
    ?_, hrun⟩
  obtain ⟨node, hnode, rfl⟩ := hleast.fastest
  have hcost : ((request.evaluateFastest node).cost,
      request.feasible (request.evaluateFastest node)) ∈
        [(finite (7 / 12000), true), (finite (7 / 3000), true)] := by
    rw [← hvalues]
    exact List.mem_map_of_mem hnode
  simp only [List.mem_cons, Prod.mk.injEq, List.not_mem_nil, or_false] at hcost
  rcases hcost with ⟨hcost, -⟩ | ⟨hcost, -⟩
  · exact hcost
  · have hle := hleast.least north hnorth hfeasible
    have hdear : Scalar.totalOrder (finite (7 / 3000) : Exact ℚ) (finite (7 / 12000)) = .gt := by
      decide +kernel
    rw [Candidate.byCost, hcheap, hcost, hdear] at hle
    cases hle

end Fork

end WattPlan
