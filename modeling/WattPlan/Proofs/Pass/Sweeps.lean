import Mathlib
import WattPlan.Planner
import WattPlan.Proofs.Exact
import WattPlan.Proofs.Metrics
import WattPlan.Proofs.Pass.Returns
import WattPlan.Proofs.Workflow.Draft

/-!
# Runs over any order

A run may take the jobs in any order. `Pass.Sweeps` lists the passes after each of its sweeps. A
sweep places at least the jobs whose parents were placed before it, so after each sweep the jobs of
one more depth are placed (`Sweeps.placed_of_depth`) and there are no more sweeps than depths
(`Sweeps.length_le`). An order in which every job comes after its parents is kept by the first sweep
(`Takes.sweep_of_respects`). `run_completes` puts this together with what the solution of a run is
made of. `Fork` is a small workflow to which the theorems about runs are applied.
-/

namespace WattPlan

open Trial

variable {α : Type} [Scalar α]

namespace Pass

variable {problem : Problem α} {timelines : Timelines α} {pass : Pass α} {solution : Solution α}
  {turns : List (Turn α)} {waiting order : List JobId} {passes : List (Pass α)}
  {generator following final : Generator}

/-- The sweeps over waiting jobs from a pass and a generator on, until all jobs are placed: the pass
after each of them, and the generator after the last one. -/
inductive Sweeps (problem : Problem α) :
    List JobId → Pass α → Generator → List (Pass α) → Generator → Prop where
  | done (waiting : List JobId) (pass : Pass α) (generator : Generator) :
      problem.workflow.jobs.length ≤ pass.placed.length →
      Sweeps problem waiting pass generator [] generator
  | sweep (waiting left : List JobId) (pass next : Pass α) (generator following final : Generator)
      (passes : List (Pass α)) :
      pass.placed.length < problem.workflow.jobs.length →
      (sweep problem waiting pass).run generator = (.ok (next, left), following) →
      Sweeps problem left next following passes final →
      Sweeps problem waiting pass generator (next :: passes) final

/-- Sweeps that come to a pass have made sweeps, the last of which ended in it. -/
theorem exists_sweeps_of_run {last : Pass α}
    (hrun : (sweeps problem waiting pass).run generator = (.ok last, final)) :
    ∃ passes, Sweeps problem waiting pass generator passes final ∧
      (pass :: passes).getLast? = some last := by
  induction hcount : waiting.length using Nat.strongRecOn generalizing waiting pass generator with
  | ind count ih =>
      unfold sweeps at hrun
      split at hrun
      · rename_i hall
        cases hrun
        exact ⟨[], .done _ _ _ hall, rfl⟩
      · rename_i hrest
        obtain ⟨⟨next, left⟩, following, hsweep, hmore⟩ := run_bind_eq_ok.1 hrun
        dsimp only at hmore
        split at hmore
        · rename_i hprogress
          obtain ⟨passes, hsweeps, hlast⟩ := ih left.length (by omega) hmore rfl
          exact ⟨next :: passes, .sweep waiting left pass next generator following final passes
            (Nat.lt_of_not_le hrest) hsweep hsweeps, by rwa [List.getLast?_cons_cons]⟩
        · cases hmore

/-- A sweep over waiting jobs places those of the next depth, if those of smaller depths are placed.
-/
theorem Takes.sweep_depth (h : Takes problem timelines generator turns pass following)
    (harranged : problem.workflow.Arranged)
    (hperm : (waiting ++ pass.commitOrder).Perm problem.workflow.jobIds) {depth : Nat}
    (hdepth : ∀ id ∈ problem.workflow.jobIds, problem.workflow.depthOf id < depth →
      id ∈ pass.commitOrder) {next : Pass α} {left : List JobId}
    (hsweep : (sweep problem waiting pass).run following = (.ok (next, left), final)) :
    (∃ more, Takes problem timelines generator (turns ++ more) next final) ∧
      (left ++ next.commitOrder).Perm problem.workflow.jobIds ∧
      ∀ id ∈ problem.workflow.jobIds, problem.workflow.depthOf id < depth + 1 →
        id ∈ next.commitOrder := by
  obtain ⟨more, next', left', final', hsweep', hnext, hswept, -⟩ := h.sweep_ok harranged waiting
  obtain ⟨heq, rfl⟩ := run_eq_ok_unique hsweep hsweep'
  cases heq
  have hall := hswept.perm.trans hperm
  refine ⟨⟨more, hnext⟩, hall, fun id hid hlt => ?_⟩
  rcases List.mem_append.1 (hall.mem_iff.2 hid) with hwaits | hplaced
  · obtain ⟨job, hjob⟩ := Workflow.job?_isSome (harranged.mem_jobIds.1 hid)
    rcases hswept.waits id hwaits job hjob with hplaced | ⟨parent, hparent, hunplaced⟩
    · exact hplaced
    · -- A parent that was not placed before has a smaller depth than the job.
      rw [← harranged.parentsOf_id (Workflow.mem_of_job? hjob), harranged.id_eq hjob] at hparent
      obtain ⟨hmem, hless⟩ := harranged.parentsOf_lt hid hparent
      exact absurd (hdepth parent hmem (by omega)) hunplaced
  · exact hplaced

namespace Sweeps

/-- After each further sweep the jobs of one more depth are placed. -/
theorem placed_of_depth (h : Sweeps problem waiting pass following passes final)
    (htakes : Takes problem timelines generator turns pass following)
    (harranged : problem.workflow.Arranged)
    (hperm : (waiting ++ pass.commitOrder).Perm problem.workflow.jobIds) {depth : Nat}
    (hdepth : ∀ id ∈ problem.workflow.jobIds, problem.workflow.depthOf id < depth →
      id ∈ pass.commitOrder) {count : Nat} {next : Pass α} (hnext : passes[count]? = some next) :
    ∀ id ∈ problem.workflow.jobIds, problem.workflow.depthOf id < depth + count + 1 →
      id ∈ next.commitOrder := by
  induction h generalizing turns depth count with
  | done => simp at hnext
  | sweep waiting left pass first following middle final passes hrest hsweep _ ih =>
      obtain ⟨⟨more, hfirst⟩, hall, hplaced⟩ := htakes.sweep_depth harranged hperm hdepth hsweep
      cases count with
      | zero =>
          obtain rfl := Option.some.inj hnext
          exact hplaced
      | succ count =>
          have hlater := ih hfirst hall hplaced hnext
          rwa [Nat.add_right_comm depth 1 count] at hlater

/-- There are no more sweeps than depths of jobs that were not placed before. -/
theorem length_le (h : Sweeps problem waiting pass following passes final)
    (htakes : Takes problem timelines generator turns pass following)
    (harranged : problem.workflow.Arranged)
    (hperm : (waiting ++ pass.commitOrder).Perm problem.workflow.jobIds) {depth : Nat}
    (hdepth : ∀ id ∈ problem.workflow.jobIds, problem.workflow.depthOf id < depth →
      id ∈ pass.commitOrder) : passes.length ≤ problem.workflow.maxDepth + 1 - depth := by
  induction h generalizing turns depth with
  | done => exact Nat.zero_le _
  | sweep waiting left pass first following middle final passes hrest hsweep _ ih =>
      obtain ⟨⟨more, hfirst⟩, hall, hplaced⟩ := htakes.sweep_depth harranged hperm hdepth hsweep
      have hlater := ih hfirst hall hplaced
      -- A job waits, and it is not of a smaller depth.
      have hne : waiting ≠ [] := by
        rintro rfl
        have hlength := hperm.length_eq
        simp only [Workflow.jobIds, commitOrder, List.nil_append, List.length_map] at hlength
        omega
      obtain ⟨id, hid⟩ := List.exists_mem_of_ne_nil waiting hne
      have hmem := hperm.mem_iff.1 (List.mem_append_left _ hid)
      have hnodup := hperm.nodup_iff.2 harranged.nodup_jobIds
      have hle := harranged.depthOf_le hmem
      have hdeep : depth ≤ problem.workflow.depthOf id := by
        refine Nat.le_of_not_lt fun hlt => ?_
        exact (List.nodup_append.1 hnodup).2.2 id hid id (hdepth id hmem hlt) rfl
      rw [List.length_cons]
      omega

end Sweeps

/-- A sweep places all jobs in their order, if each of them comes after its parents. -/
theorem Takes.sweep_of_respects (h : Takes problem timelines generator turns pass following)
    (harranged : problem.workflow.Arranged) {ids : List JobId}
    (hids : ∀ id ∈ ids, id ∈ problem.workflow.jobIds) (hnodup : (pass.commitOrder ++ ids).Nodup)
    (hrespects : Respects problem.workflow.parentsOf (pass.commitOrder ++ ids)) :
    ∃ last final, (sweep problem ids pass).run following = (.ok (last, []), final) ∧
      last.commitOrder = pass.commitOrder ++ ids := by
  induction ids generalizing pass turns following with
  | nil => exact ⟨pass, following, rfl, (List.append_nil _).symm⟩
  | cons id rest ih =>
      rw [List.forall_mem_cons] at hids
      obtain ⟨job, hjob⟩ := Workflow.job?_isSome (harranged.mem_jobIds.1 hids.1)
      have hmem := Workflow.mem_of_job? hjob
      have hdue : pass.isDue job = true := by
        simp only [isDue, Bool.and_eq_true, Bool.not_eq_true', List.all_eq_true]
        constructor
        · rw [harranged.id_eq hjob, Bool.eq_false_iff, ne_eq, isPlaced_iff]
          exact fun hplaced =>
            (List.nodup_append.1 hnodup).2.2 id hplaced id List.mem_cons_self rfl
        · intro parent hparent
          rw [← harranged.parentsOf_id hmem, harranged.id_eq hjob] at hparent
          exact isPlaced_iff.2 (hrespects _ _ _ rfl parent hparent)
      obtain ⟨turn, next, middle, hplace, hnext, horder, -⟩ := h.place_ok harranged hmem hdue
      rw [harranged.id_eq hjob] at horder
      rw [List.append_cons, ← horder] at hnodup hrespects
      obtain ⟨last, final, hsweep, hlast⟩ := ih hnext hids.2 hnodup hrespects
      refine ⟨last, final, ?_, by rw [hlast, horder, List.append_assoc, List.singleton_append]⟩
      unfold sweep
      rw [hjob, Option.filter_some, if_pos hdue]
      exact run_bind_eq_ok.2 ⟨next, middle, hplace, hsweep⟩

/-- An order in which every job comes after its parents takes one sweep, and the jobs are placed in
that order. -/
theorem exists_sweep_of_respects (harranged : problem.workflow.Arranged) (timelines : Timelines α)
    (horder : order.Perm problem.workflow.jobIds)
    (hrespects : Respects problem.workflow.parentsOf order) (generator : Generator) :
    ∃ last following,
      (sweep problem order (start timelines)).run generator = (.ok (last, []), following) ∧
      (sweeps problem order (start timelines)).run generator = (.ok last, following) ∧
      last.commitOrder = order := by
  have htakes : Takes problem timelines generator [] (start timelines) generator := .start
  obtain ⟨last, following, hsweep, hlast⟩ := htakes.sweep_of_respects harranged
    (fun id hid => horder.mem_iff.1 hid) (horder.nodup_iff.2 harranged.nodup_jobIds) hrespects
  have hlast : last.commitOrder = order := hlast
  have hlength : last.placed.length = problem.workflow.jobs.length := by
    simpa [← hlast, commitOrder, Workflow.jobIds] using horder.length_eq
  refine ⟨last, following, hsweep, ?_, hlast⟩
  unfold sweeps
  split
  · -- Without jobs there is no sweep, which is what a sweep over none comes to.
    rename_i hnone
    have hjobs : problem.workflow.jobs = [] := List.length_eq_zero_iff.1 (Nat.le_zero.1 hnone)
    rw [Workflow.jobIds, hjobs] at horder
    obtain rfl := horder.eq_nil
    cases hsweep
    rfl
  · rename_i hrest
    have hprogress : ([] : List JobId).length < order.length := by
      rw [List.length_nil, horder.length_eq, Workflow.jobIds, List.length_map]
      exact Nat.zero_lt_of_lt (Nat.lt_of_not_le hrest)
    refine run_bind_eq_ok.2 ⟨(last, []), following, hsweep, ?_⟩
    dsimp only
    rw [dif_pos hprogress]
    unfold sweeps
    rw [if_pos hlength.ge]
    rfl

/-- In an order in which every job comes after its parents, the jobs are placed in that order. -/
theorem commitOrder_of_respects (harranged : problem.workflow.Arranged)
    (horder : order.Perm problem.workflow.jobIds)
    (hrespects : Respects problem.workflow.parentsOf order) {last : Pass α}
    (hrun : (sweeps problem order (start timelines)).run generator = (.ok last, final)) :
    last.commitOrder = order := by
  obtain ⟨swept, following, -, hsweeps, hswept⟩ :=
    exists_sweep_of_respects harranged timelines horder hrespects generator
  obtain ⟨rfl, -⟩ := run_eq_ok_unique hrun hsweeps
  exact hswept

/-- A run over an order in which every job comes after its parents is one sweep, and it comes to a
solution whose jobs were placed in that order. -/
theorem run_of_respects (harranged : problem.workflow.Arranged) (timelines : Timelines α)
    (horder : order.Perm problem.workflow.jobIds)
    (hrespects : Respects problem.workflow.parentsOf order) (generator : Generator) :
    ∃ last solution following,
      (sweep problem order (start timelines)).run generator = (.ok (last, []), following) ∧
      last.solution problem.workflow = .ok solution ∧
      (Pass.run problem timelines order).run generator = (.ok solution, following) ∧
      solution.commitOrder = order := by
  obtain ⟨last, following, hsweep, hsweeps, hlast⟩ :=
    exists_sweep_of_respects harranged timelines horder hrespects generator
  obtain ⟨solution, final, hrun⟩ := run_ok harranged timelines horder generator
  obtain ⟨other, hother, -, hsolution⟩ := run_eq_ok_iff.1 hrun
  obtain ⟨rfl, rfl⟩ := run_eq_ok_unique hsweeps hother
  refine ⟨last, solution, following, hsweep, hsolution, hrun, ?_⟩
  obtain ⟨placements, -, rfl⟩ := solution_eq_ok hsolution
  exact hlast

/-- The windows of a node in a pass are those it started from and one for each placement on it. -/
theorem Reached.ofNode_perm (h : Reached problem timelines pass)
    (hcatalog : problem.catalog.Drafted)
    (hlength : timelines.nodes.length = problem.catalog.nodes.length) (node : NodeId) :
    (pass.timelines.ofNode node).windows.Perm ((timelines.ofNode node).windows ++
      (pass.placed.filter fun placement => placement.node.id = node).map fun placement =>
        placement.window problem.workflow.id) := by
  refine h.preserves (P := fun pass => (pass.timelines.ofNode node).windows.Perm
    ((timelines.ofNode node).windows ++
      (pass.placed.filter fun placement => placement.node.id = node).map fun placement =>
        placement.window problem.workflow.id)) (by simp [Pass.start]) ?_
  intro pass job request candidate hreached ih _ _ hrequest hoffers
  have hlt := hreached.node_lt hcatalog hlength hrequest hoffers
  show ((pass.timelines.insert _ _).ofNode node).windows.Perm
    (_ ++ ((pass.placed ++ [_]).filter _).map _)
  rw [List.filter_append, List.map_append, ← List.append_assoc]
  by_cases heq : candidate.node.id = node
  · subst heq
    rw [Timelines.ofNode_insert_self hlt, List.filter_cons_of_pos (by simp), List.filter_nil]
    refine (Timeline.insert_perm _ _).trans ?_
    exact (List.Perm.cons _ ih).trans (List.perm_append_singleton _ _).symm
  · rw [Timelines.ofNode_insert_of_ne heq, List.filter_cons_of_neg (by simpa using heq),
      List.filter_nil, List.map_nil, List.append_nil]
    exact ih

/-- What the solution of a run over an order is: all jobs are placed, each after its parents, and in
the given order if that has them so. Its placements are listed by job, its figures are folds over
them in the order in which they were made, and its windows are those that were there and one for
each placement. -/
structure Completes (problem : Problem α) (timelines : Timelines α) (order : List JobId)
    (solution : Solution α) : Prop where
  all : solution.commitOrder.Perm problem.workflow.jobIds
  precedence : Respects problem.workflow.parentsOf solution.commitOrder
  kept : Respects problem.workflow.parentsOf order → solution.commitOrder = order
  jobs : solution.placements.map Placement.job = List.range problem.workflow.jobs.length
  placed : solution.placed.map Placement.job = solution.commitOrder
  cost : solution.cost = solution.placed.foldl (fun total placement => total + placement.cost) 0
  reliability : solution.reliability =
    solution.placed.foldl (fun total placement => total * placement.reliability) 1
  finishTime : solution.finishTime =
    solution.placed.foldl (fun latest placement => Scalar.max latest placement.finish) 0
  windows : solution.timelines.windows.Perm (timelines.windows ++
    solution.placements.map fun placement => placement.window problem.workflow.id)
  ofNode : ∀ node, (timelines.ofNode node).windows.Sublist
      (solution.timelines.ofNode node).windows ∧
    (solution.timelines.ofNode node).windows.Perm ((timelines.ofNode node).windows ++
      (solution.placements.filter fun placement => placement.node.id = node).map fun placement =>
        placement.window problem.workflow.id)

/-- The solution of a pass has the placements of the pass, in the order of the jobs. -/
theorem Reached.placements_perm (h : Reached problem timelines pass)
    (hall : pass.commitOrder.Perm problem.workflow.jobIds)
    (hsolution : pass.solution problem.workflow = .ok solution) :
    solution.placements.Perm pass.placed := by
  obtain ⟨placements, hplacements, rfl⟩ := solution_eq_ok hsolution
  show placements.Perm pass.placed
  rw [← filterMap_eq_of_forall₂ hplacements, ← filterMap_placement? h.nodup]
  exact (hall.filterMap _).symm

/-- The solution of a pass that sweeps over an order have come to. -/
theorem Reached.completes (h : Reached problem timelines pass)
    (hcatalog : problem.catalog.Drafted) (harranged : problem.workflow.Arranged)
    (hlength : timelines.nodes.length = problem.catalog.nodes.length)
    (horder : order.Perm problem.workflow.jobIds)
    (hsweeps : (sweeps problem order (Pass.start timelines)).run generator = (.ok pass, following))
    (hall : pass.commitOrder.Perm problem.workflow.jobIds)
    (hsolution : pass.solution problem.workflow = .ok solution) :
    Completes problem timelines order solution := by
  have hperm := h.placements_perm hall hsolution
  have hplaced := h.placed_eq harranged hsolution
  obtain ⟨hcount, hplacements⟩ := h.placements_eq harranged hsolution
  obtain ⟨placements, -, rfl⟩ := solution_eq_ok hsolution
  constructor
  case all => exact hall
  case precedence => exact h.respects harranged
  case kept => exact fun hrespects => commitOrder_of_respects harranged horder hrespects hsweeps
  case jobs => rw [map_job_eq_range hplacements, hcount]
  case placed => rw [hplaced, commitOrder]
  case cost => rw [hplaced, cost]
  case reliability => rw [hplaced, reliability]
  case finishTime =>
    rw [hplaced]
    exact List.foldl_map
  case windows =>
    exact (h.windows_perm hcatalog hlength).trans (List.Perm.append_left _ (hperm.map _).symm)
  case ofNode =>
    refine fun node => ⟨h.sublist_ofNode node, ?_⟩
    exact (h.ofNode_perm hcatalog hlength node).trans
      (List.Perm.append_left _ ((hperm.filter _).map _).symm)

/-- Where all requests are priced, a run over any order of all jobs returns a solution. After its
sweep number `count + 1` all jobs of depths up to `count` are placed, so there are at most as many
sweeps as depths, and the solution is that of the pass after the last one. -/
theorem run_completes (hcatalog : problem.catalog.Drafted) (hworkflow : problem.workflow.Drafted)
    (hlength : timelines.nodes.length = problem.catalog.nodes.length)
    (horder : order.Perm problem.workflow.jobIds) (hpriced : problem.Priced timelines)
    (generator : Generator) :
    ∃ solution following passes last,
      Returns problem timelines order generator solution following ∧
      Sweeps problem order (start timelines) generator passes following ∧
      passes.length ≤ problem.workflow.maxDepth + 1 ∧
      (∀ count pass, passes[count]? = some pass → ∀ job ∈ problem.workflow.jobs,
        job.depth < count + 1 → pass.isPlaced job.id = true) ∧
      (start timelines :: passes).getLast? = some last ∧
      last.solution problem.workflow = .ok solution ∧
      Completes problem timelines order solution := by
  have harranged := hworkflow.arranged
  have htakes : Takes problem timelines generator [] (start timelines) generator := .start
  have hstart : (order ++ (start timelines).commitOrder).Perm problem.workflow.jobIds := by
    rw [start, commitOrder, List.map_nil, List.append_nil]
    exact horder
  have hnone : ∀ id ∈ problem.workflow.jobIds, problem.workflow.depthOf id < 0 →
      id ∈ (start timelines).commitOrder := fun _ _ hlt => absurd hlt (Nat.not_lt_zero _)
  obtain ⟨last, following, hrun, hall⟩ := htakes.sweeps_ok harranged hstart
  obtain ⟨turns, hlast, -⟩ := htakes.of_sweeps harranged hrun
  obtain ⟨passes, hsweeps, hend⟩ := exists_sweeps_of_run hrun
  obtain ⟨solution, hsolution⟩ := solution_ok hall
  have hreturns := returns_of_run harranged hpriced (run_eq_ok_iff.2 ⟨last, hrun,
    hlast.reached.verifyTopological_ok harranged, hsolution⟩)
  refine ⟨solution, following, passes, last, hreturns, hsweeps,
    hsweeps.length_le htakes harranged hstart hnone, fun count pass hpass job hjob hdepth => ?_,
    hend, hsolution,
    hlast.reached.completes hcatalog harranged hlength horder hrun hall hsolution⟩
  refine isPlaced_iff.2 (hsweeps.placed_of_depth htakes harranged hstart hnone hpass job.id
    (List.mem_map_of_mem hjob) ?_)
  rw [harranged.depthOf_id hjob, Nat.zero_add]
  exact hdepth

end Pass

/-!
## A fork

A planner over rational numbers with a node at each of two sites, and a workflow of three jobs of
which two read what the first one writes.
-/

namespace Fork

open Exact

/-- Functions that agree with the exponential at 0 and with the powers of 0 and 1, which is all that
is computed of them here. The first one is nowhere negative. -/
scoped instance : Exponentials ℚ where
  exp x := max 0 (1 + x)
  pow x _ := x

def north : Site (Exact ℚ) :=
  ⟨0, "north", ⟨[finite 2, finite 7], List.cons_ne_nil _ _⟩⟩

def south : Site (Exact ℚ) :=
  ⟨1, "south", ⟨[finite 6], List.cons_ne_nil _ _⟩⟩

def catalog : Catalog (Exact ℚ) where
  sites := [north, south]
  nodes :=
    [⟨0, "even", north, ⟨finite 4, finite 300, finite 0⟩, [⟨finite 2, finite 120, finite 0⟩]⟩,
      ⟨1, "slow", south, ⟨finite 1, finite 100, finite 0⟩, []⟩]
  network := ⟨finite 10, finite 2⟩
  nonempty := List.cons_ne_nil _ _

/-- The first job reads a stored input at the slow node. -/
def workflow : Workflow (Exact ℚ) where
  id := 3
  name := "fork"
  submittedAt := finite 5
  reliabilityGoal := some (finite 1)
  deadline := none
  jobs :=
    [⟨0, "split", finite 8, 0, [], [1, 2], [⟨"seed", finite 6, some 1⟩], [],
        [⟨"data", finite 20, none⟩], none⟩,
      ⟨1, "left", finite 4, 1, [0], [], [], [⟨"data", finite 20, none⟩], [], none⟩,
      ⟨2, "right", finite 6, 1, [0], [], [], [⟨"data", finite 20, none⟩], [], none⟩]

def settings : Settings (Exact ℚ) :=
  ⟨.reliabilityAware, finite 9, finite 1, 0, finite 1, finite 1, finite 1, 3, 3⟩

def planner : Planner (Exact ℚ) :=
  .start catalog settings

theorem catalog_drafted : catalog.Drafted := by
  refine ⟨_, ⟨finite 10, finite 2⟩, finite 10, finite 2, CatalogDraft.Drawn.empty.perform
    [.site "north" [finite 2, finite 7], .site "south" [finite 6],
      .node "even" 0 [⟨finite 4, finite 300, finite 0⟩, ⟨finite 2, finite 120, finite 0⟩],
      .node "slow" 1 [⟨finite 1, finite 100, finite 0⟩]], ?_, ?_⟩
  · with_unfolding_all rfl
  · with_unfolding_all rfl

theorem workflow_drafted : workflow.Drafted := by
  refine ⟨_, (WorkflowDraft.Drawn.empty 3 "fork" (finite 5) (some (finite 1))).perform
    [.job "split" (finite 8), .job "left" (finite 4), .job "right" (finite 6), .dependency 0 1,
      .dependency 0 2, .input 0 ⟨"seed", finite 6, some 1⟩, .output 0 ⟨"data", finite 20, none⟩,
      .input 1 ⟨"data", finite 20, none⟩, .input 2 ⟨"data", finite 20, none⟩], ?_⟩
  cbv

/-- The fork is placed in the order that has its jobs the wrong way round. -/
theorem backwards_completes : catalog.Drafted ∧ workflow.Drafted ∧
    planner.timelines.nodes.length = catalog.nodes.length ∧ [2, 1, 0].Perm workflow.jobIds ∧
    ∃ metrics : Metrics (Exact ℚ), metrics.Fits workflow catalog ∧
    ∃ solution following passes last,
      Pass.Returns (planner.problemOf workflow metrics) planner.timelines [2, 1, 0]
        planner.generator solution following ∧
      Pass.Sweeps (planner.problemOf workflow metrics) [2, 1, 0] (.start planner.timelines)
        planner.generator passes following ∧
      passes.length ≤ workflow.maxDepth + 1 ∧
      (∀ count pass, passes[count]? = some pass → ∀ job ∈ workflow.jobs,
        job.depth < count + 1 → pass.isPlaced job.id = true) ∧
      (.start planner.timelines :: passes).getLast? = some last ∧
      last.solution workflow = .ok solution ∧
      Pass.Completes (planner.problemOf workflow metrics) planner.timelines [2, 1, 0] solution := by
  obtain ⟨metrics, -, hfits⟩ := Metrics.ofWorkflow_eq_ok workflow_drafted.arranged catalog
    .siteAggregated .mean
  have horder : [2, 1, 0].Perm workflow.jobIds := by decide
  exact ⟨catalog_drafted, workflow_drafted, rfl, horder, metrics, hfits,
    Pass.run_completes catalog_drafted workflow_drafted rfl horder
      (Problem.priced _ planner.timelines) planner.generator⟩

end Fork

namespace LongRun

/-- A planner of a variant with the standard settings, before its first workflow. -/
def planner (variant : Variant) : Planner Float :=
  .start catalog { Settings.standard with variant }

/-- A pass over the one job does not return, whatever the generator is. -/
theorem pass_never_returns : catalog.Drafted ∧ workflow.Drafted ∧
    (planner .heft).timelines.nodes.length = catalog.nodes.length ∧ [0].Perm workflow.jobIds ∧
    ∃ metrics : Metrics Float, metrics.Fits workflow catalog ∧
      ∀ generator solution following,
        ¬ Pass.Returns ((planner .heft).problemOf workflow metrics) (planner .heft).timelines [0]
          generator solution following := by
  obtain ⟨metrics, -, hfits⟩ := Metrics.ofWorkflow_eq_ok workflow_drafted.arranged catalog
    .siteAggregated .mean
  exact ⟨catalog_drafted, workflow_drafted, rfl, .refl _, metrics, hfits,
    fun _ _ _ => not_returns rfl rfl hfits⟩

end LongRun

end WattPlan
