import WattPlan.Proofs.Pass.Billing
import WattPlan.Proofs.Planner.Consistency
import WattPlan.Proofs.Tariff.Cost

/-!
# Two ways to bill staging

The staging of a job is billed for the window until all inputs are there, or for each transfer by
itself. A job with at most one parent costs the same both ways (`Reached.staging_bills_agree`): its
transfer begins with the window, since no parent finishes before the submission
(`Reached.submitted_le_finish`), and the staging of the stored inputs takes up the rest of it. The
hours of the window must have numbers of a word, as `LateHours` shows.
-/

namespace WattPlan

open Exact

section Billing

variable {α : Type}

/-- The problem with another way to bill staging. -/
def Problem.billedBy (problem : Problem α) (billing : StagingBilling) : Problem α :=
  { problem with profile := { problem.profile with staging := billing } }

/-- The request with another way to bill staging. -/
def Request.billedBy (request : Request α) (billing : StagingBilling) : Request α :=
  { request with problem := request.problem.billedBy billing }

variable [Scalar α] {problem : Problem α} {pass : Pass α} {job : Job α} {request : Request α}

/-- What is known about a job does not depend on how its staging is billed. -/
theorem Pass.request_billedBy (h : pass.request problem job = .ok request)
    (billing : StagingBilling) :
    pass.request (problem.billedBy billing) job = .ok (request.billedBy billing) := by
  obtain ⟨arrivals, harrivals, hrest⟩ := exists_of_bind_eq_ok h
  obtain rfl := Except.ok.inj hrest
  exact bind_eq_ok harrivals rfl

/-- Only the cost of a candidate depends on how staging is billed. -/
theorem Request.evaluate_billedBy {node : Node α} {ready : α} {level : PowerLevel α} {place : Nat}
    {billing other : StagingBilling}
    (h : (request.billedBy billing).stagingCost node level.power ready =
      (request.billedBy other).stagingCost node level.power ready) :
    (request.billedBy billing).evaluate node ready (level, place) =
      (request.billedBy other).evaluate node ready (level, place) := by
  unfold evaluate
  dsimp only
  rw [h]
  rfl

end Billing

variable {K : Type} [Field K] [LinearOrder K] [IsStrictOrderedRing K] [FloorRing K]
  [Exponentials K]

namespace Pass

variable {problem : Problem (Exact K)} {pass : Pass (Exact K)} {timelines : Timelines (Exact K)}
  {job : Job (Exact K)} {request : Request (Exact K)} {node : Node (Exact K)}
  {arrival : Arrival (Exact K)}

/-- No job finishes before the submission of its workflow. -/
theorem Reached.submitted_le_finish (h : Reached problem timelines pass) (htimed : problem.Timed)
    (hsound : ∀ node, (timelines.ofNode node).Sound) :
    ∀ placement ∈ pass.placed, problem.workflow.submittedAt ≤ placement.finish := by
  refine h.preserves (P := fun pass =>
    ∀ placement ∈ pass.placed, problem.workflow.submittedAt ≤ placement.finish)
    (by simp [Pass.start]) ?_
  intro pass job request candidate hreached ih hjob _ hrequest hoffers placement hplacement
  rcases List.mem_append.1 hplacement with hplacement | hplacement
  · exact ih placement hplacement
  · rw [List.mem_singleton.1 hplacement]
    have hpass := hreached.timed htimed hsound
    obtain ⟨hasks, htimelines⟩ := asks_of_request hrequest
    obtain ⟨r, s, d, hready, -, hfinish, hrs, -, hd, -⟩ :=
      hasks.times_of_offers htimelines htimed hpass hjob hoffers
    obtain ⟨node, hnode, level, -, place, rfl⟩ := hasks.exists_evaluate hoffers
    obtain ⟨x, hx⟩ := htimed.submitted
    obtain ⟨staging, hstaging, hnonneg⟩ :=
      htimed.catalog.stagingTime_amount htimed.measured hjob node
    obtain ⟨r', hready', hstaged, -⟩ := hasks.readyTime_finite htimed hpass.finishes hjob hnode
    obtain rfl := Exact.finite.inj (hready'.symm.trans hready)
    rw [hx, hstaging, add_finite, le_finite] at hstaged
    show problem.workflow.submittedAt ≤ _
    rw [hx, hfinish, le_finite]
    linarith

/-- What a parent gives is there at a time from the submission on, and takes an amount of time to a
node. -/
theorem Asks.arrival_times (hasks : pass.Asks problem job request) (htimed : problem.Timed)
    (hpass : pass.Timed)
    (hsubmitted : ∀ placement ∈ pass.placed, problem.workflow.submittedAt ≤ placement.finish)
    (hjob : job ∈ problem.workflow.jobs) (harrival : arrival ∈ request.arrivals)
    (node : Node (Exact K)) :
    ∃ f t, arrival.finish = finite f ∧ request.transferTime arrival node = finite t ∧ 0 ≤ t ∧
      problem.workflow.submittedAt ≤ finite f := by
  obtain ⟨parent, -, hparent⟩ := forall₂_exists_left hasks.arrivals_from harrival
  obtain ⟨placement, writer, hplacement, -, rfl⟩ := arrivalFrom_eq_ok hparent
  have hmem := (placement?_eq_some hplacement).1
  obtain ⟨f, hf⟩ := hpass.finishes placement hmem
  obtain ⟨x, hdata, hx⟩ : (job.dataFrom writer).IsAmount := htimed.measured.dataFrom_amount hjob
  obtain ⟨rate, hrate, htransfer⟩ := htimed.catalog.exists_transferRate placement.node node
  refine ⟨f, x * rate, hf, ?_, mul_nonneg hx hrate, hf ▸ hsubmitted placement hmem⟩
  rw [Request.transferTime, hasks.problem_eq, hdata, htransfer]

/-- The window in which the inputs of a job are staged is never reversed. -/
theorem Asks.begin_le_ready (hasks : pass.Asks problem job request) (htimed : problem.Timed)
    (hpass : pass.Timed)
    (hsubmitted : ∀ placement ∈ pass.placed, problem.workflow.submittedAt ≤ placement.finish)
    (hjob : job ∈ problem.workflow.jobs) (hnode : node ∈ problem.catalog.nodes) :
    ∃ b r, request.begin = finite b ∧ request.readyTime node = finite r ∧ b ≤ r := by
  obtain ⟨r, hready, hstaged, harrived, -⟩ :=
    hasks.readyTime_finite htimed hpass.finishes hjob hnode
  obtain ⟨staging, hstaging, hnonneg⟩ :=
    htimed.catalog.stagingTime_amount htimed.measured hjob node
  obtain ⟨b, hbegin⟩ := hasks.begin_finite htimed hpass
  refine ⟨b, r, hbegin, hready, ?_⟩
  rw [hasks.begin_eq, beginOf] at hbegin
  split at hbegin
  · rw [hbegin, hstaging, add_finite, le_finite] at hstaged
    linarith
  · rename_i hne
    obtain ⟨arrival, harrival⟩ := List.exists_mem_of_ne_nil _ (by simpa using hne)
    obtain ⟨f, t, hfinish, htransfer, ht, -⟩ :=
      hasks.arrival_times htimed hpass hsubmitted hjob harrival node
    have hfirst : finite b ≤ finite f := by
      rw [← hbegin]
      refine Exact.minFrom_le (.inr ⟨_, List.mem_map_of_mem harrival, ?_⟩)
      rw [hfinish, le_finite]
    have hbound := harrived arrival harrival
    rw [← hasks.problem_eq] at hbound
    change arrival.finish + request.transferTime arrival node + _ ≤ _ at hbound
    rw [hfinish, htransfer, hasks.problem_eq, hstaging, add_finite, add_finite, le_finite] at hbound
    rw [le_finite] at hfirst
    linarith

/-- A job without parents is staged from the submission on. -/
theorem Asks.window_of_root (hasks : pass.Asks problem job request) (htimed : problem.Timed)
    (hjob : job ∈ problem.workflow.jobs) (hnode : node ∈ problem.catalog.nodes)
    (hroot : job.parents = []) :
    request.arrivals = [] ∧ ∃ b s, request.begin = finite b ∧
      request.stagingTime node = finite s ∧ request.readyTime node = finite (b + s) := by
  have harrivals : request.arrivals = [] := by
    have hfrom := hasks.arrivals_from
    rw [hroot] at hfrom
    exact List.forall₂_nil_left_iff.1 hfrom
  obtain ⟨b, hb⟩ := htimed.submitted
  obtain ⟨s, hs⟩ := htimed.catalog.stagingTime_finite htimed.measured hjob node
  have hstaging := (hasks.stagingTime_eq htimed hjob hnode).trans hs
  refine ⟨harrivals, b, s, ?_, hstaging, ?_⟩
  · rw [hasks.begin_eq, harrivals, ← hb]
    rfl
  · rw [Request.readyTime, harrivals, hasks.problem_eq, hstaging, hb]
    rfl

/-- A job with one parent is staged from the finish of that parent on, first what it reads of the
parent and then what is stored. -/
theorem Asks.window_of_child (hasks : pass.Asks problem job request) (htimed : problem.Timed)
    (hpass : pass.Timed)
    (hsubmitted : ∀ placement ∈ pass.placed, problem.workflow.submittedAt ≤ placement.finish)
    (hjob : job ∈ problem.workflow.jobs) (hnode : node ∈ problem.catalog.nodes)
    (hparent : job.parents.length = 1) :
    ∃ arrival f t s, request.arrivals = [arrival] ∧ arrival.finish = finite f ∧
      request.transferTime arrival node = finite t ∧ 0 ≤ t ∧ request.begin = finite f ∧
      request.stagingTime node = finite s ∧ 0 ≤ s ∧
      request.readyTime node = finite (f + t + s) := by
  obtain ⟨arrival, harrivals⟩ :=
    List.length_eq_one_iff.1 (hasks.arrivals_from.length_eq.symm.trans hparent)
  obtain ⟨f, t, hfinish, htransfer, ht, hlate⟩ := hasks.arrival_times htimed hpass hsubmitted hjob
    (harrivals ▸ List.mem_singleton_self arrival) node
  obtain ⟨s, hs, hnonneg⟩ := htimed.catalog.stagingTime_amount htimed.measured hjob node
  have hstaging := (hasks.stagingTime_eq htimed hjob hnode).trans hs
  obtain ⟨x, hx⟩ := htimed.submitted
  rw [hx, le_finite] at hlate
  refine ⟨arrival, f, t, s, harrivals, hfinish, htransfer, ht, ?_, hstaging, hnonneg, ?_⟩
  · rw [hasks.begin_eq, harrivals]
    show Scalar.min Scalar.infinity arrival.finish = finite f
    rw [hfinish]
    rfl
  · rw [Request.readyTime, harrivals, hasks.problem_eq, hstaging, hx]
    show Scalar.max (finite x) (arrival.finish + request.transferTime arrival node) + finite s = _
    rw [hfinish, htransfer, add_finite, max_finite, max_eq_right (by linarith), add_finite]

/-- The staging of a job with at most one parent costs the same both ways. -/
theorem Asks.stagingCost_billedBy (hasks : pass.Asks problem job request) (htimed : problem.Timed)
    (hpass : pass.Timed)
    (hsubmitted : ∀ placement ∈ pass.placed, problem.workflow.submittedAt ≤ placement.finish)
    (hjob : job ∈ problem.workflow.jobs) (hnode : node ∈ problem.catalog.nodes) {b r : K}
    (hbegin : request.begin = finite b) (hready : request.readyTime node = finite r)
    (hfew : job.parents = [] ∨ job.parents.length = 1 ∧ Tariff.HoursInRange b r) (power : K) :
    (request.billedBy .perTransfer).stagingCost node (finite power) (finite r) =
      (request.billedBy .readyWindow).stagingCost node (finite power) (finite r) := by
  rcases hfew with hroot | ⟨hparent, hrange⟩
  · obtain ⟨harrivals, b', s, hb, hstaging, hr⟩ := hasks.window_of_root htimed hjob hnode hroot
    obtain rfl := Exact.finite.inj (hbegin.symm.trans hb)
    obtain rfl := Exact.finite.inj (hready.symm.trans hr)
    show (request.arrivals.map _).foldl _ (node.site.tariff.energyCost
      (finite (b + s) - request.stagingTime node) _ _) = node.site.tariff.energyCost request.begin _ _
    rw [harrivals, hstaging, hbegin, sub_finite, add_sub_cancel_right]
    rfl
  · obtain ⟨arrival, f, t, s, harrivals, hfinish, htransfer, ht, hf, hstaging, hs, hr⟩ :=
      hasks.window_of_child htimed hpass hsubmitted hjob hnode hparent
    obtain rfl := Exact.finite.inj (hbegin.symm.trans hf)
    obtain rfl := Exact.finite.inj (hready.symm.trans hr)
    obtain ⟨rates, hrates⟩ := exists_map_finite (htimed.catalog.price_finite hnode)
    show (request.arrivals.map fun arrival => node.site.tariff.energyCost arrival.finish
        (arrival.finish + request.transferTime arrival node) _).foldl (· + ·)
      (node.site.tariff.energyCost (finite (b + t + s) - request.stagingTime node) _ _) =
        node.site.tariff.energyCost request.begin _ _
    rw [harrivals, List.map_singleton, List.foldl_cons, List.foldl_nil, hstaging, hbegin, hfinish,
      htransfer, sub_finite, add_sub_cancel_right, add_finite]
    exact Tariff.energyCost_add hrates hrange (by linarith) (by linarith) power

/-- In every pass from sound timelines, the window in which the inputs of a job are staged is never
reversed, and a job with at most one parent is the same candidate on every node and level however
its staging is billed, as long as the hours of the window of a job with a parent have numbers of a
word. -/
theorem Reached.staging_bills_agree (hcatalog : problem.catalog.Drafted)
    (hworkflow : problem.workflow.Submitted) {averaging : TransferAveraging}
    {speed : SpeedReference} (hmetrics : Metrics.ofWorkflow problem.workflow problem.catalog
      averaging speed = .ok problem.metrics)
    (hsound : ∀ node, (timelines.ofNode node).Sound) (hreached : Reached problem timelines pass)
    (hjob : job ∈ problem.workflow.jobs)
    (hparents : ∀ parent ∈ job.parents, pass.isPlaced parent = true) :
    ∃ window transfers, pass.request (problem.billedBy .readyWindow) job = .ok window ∧
      pass.request (problem.billedBy .perTransfer) job = .ok transfers ∧
      ∀ node ∈ problem.catalog.nodes, ∃ b r, window.begin = finite b ∧
        window.readyTime node = finite r ∧ b ≤ r ∧
        transfers.begin = window.begin ∧ transfers.readyTime node = window.readyTime node ∧
        (job.parents = [] ∨ job.parents.length = 1 ∧ Tariff.HoursInRange b r →
          ∀ (place : Nat) (level : PowerLevel (Exact K)), node.levels[place]? = some level →
            transfers.evaluate node (transfers.readyTime node) (level, place) =
              window.evaluate node (window.readyTime node) (level, place)) := by
  have harranged := hworkflow.1.arranged
  have htimed : problem.Timed := ⟨hcatalog, harranged, hworkflow.1.measured,
    Metrics.fits_of_ofWorkflow harranged hmetrics, hworkflow.2⟩
  have hpass := hreached.timed htimed hsound
  have hsubmitted := hreached.submitted_le_finish htimed hsound
  obtain ⟨request, hrequest⟩ := request_of_parents harranged hjob hparents
  obtain ⟨hasks, -⟩ := asks_of_request hrequest
  refine ⟨_, _, request_billedBy hrequest .readyWindow, request_billedBy hrequest .perTransfer,
    fun node hnode => ?_⟩
  obtain ⟨b, r, hbegin, hready, hle⟩ := hasks.begin_le_ready htimed hpass hsubmitted hjob hnode
  refine ⟨b, r, hbegin, hready, hle, rfl, rfl, fun hfew place level hlevel => ?_⟩
  obtain ⟨power, hpower⟩ := hcatalog.power_finite hnode (List.mem_of_getElem? hlevel)
  refine Request.evaluate_billedBy ?_
  change (request.billedBy .perTransfer).stagingCost node level.power (request.readyTime node) =
    (request.billedBy .readyWindow).stagingCost node level.power (request.readyTime node)
  rw [hpower, hready]
  exact hasks.stagingCost_billedBy htimed hpass hsubmitted hjob hnode hbegin hready hfew power

end Pass

/-!
## Hours without numbers

Two jobs, the second of which reads as much from the first one as from storage. Hours are numbered
by words of 64 bits, and an hour after the last number is taken for the last one.
-/

namespace LateHours

open Exact.WithoutExponentials

/-- The second hour of the cycle, which the last number belongs to, is free of charge. -/
def mill : Site (Exact ℚ) :=
  ⟨0, "mill", ⟨[finite 8, finite 0], List.cons_ne_nil _ _⟩⟩

def near : Node (Exact ℚ) :=
  ⟨0, "near", mill, ⟨finite 1, finite 0, finite 0⟩, []⟩

def far : Node (Exact ℚ) :=
  ⟨1, "far", mill, ⟨finite 36000, finite 125, finite 0⟩, []⟩

def catalog : Catalog (Exact ℚ) :=
  ⟨[mill], [near, far], ⟨finite 1, finite 1⟩, List.cons_ne_nil _ _⟩

def first : Job (Exact ℚ) :=
  ⟨0, "first", finite 0, 0, [], [1], [], [], [⟨"flour", finite 3600, none⟩], none⟩

def second : Job (Exact ℚ) :=
  ⟨1, "second", finite 36000, 1, [0], [], [⟨"salt", finite 3600, none⟩],
    [⟨"flour", finite 3600, none⟩], [], none⟩

def workflow (submitted : ℚ) : Workflow (Exact ℚ) :=
  ⟨4, "pair", finite submitted, none, none, [first, second]⟩

def settings : Settings (Exact ℚ) :=
  ⟨.heft, finite 9, finite 1, 0, finite 1, finite 1, finite 1, 3, 3⟩

def planner : Planner (Exact ℚ) :=
  .start catalog settings

def metrics : Metrics (Exact ℚ) where
  referenceSpeed := finite (36001 / 2)
  staging := [[finite 0, finite 0], [finite 3600, finite 3600]]
  meanStaging := [finite 0, finite 3600]
  transfers := [[], [finite 1800]]
  earliestFinishes := [finite 0, finite (72000 / 36001 + 5400)]
  upwardRanks := [finite (72000 / 36001 + 5400), finite (72000 / 36001 + 3600)]
  downwardRanks := [finite 0, finite 1800]

def problem (submitted : ℚ) : Problem (Exact ℚ) :=
  planner.problemOf (workflow submitted) metrics

/-- The start of the first hour after the last number. -/
def late : ℚ :=
  3600 * 9223372036854775808

theorem catalog_drafted : catalog.Drafted := by
  refine ⟨_, ⟨finite 1, finite 1⟩, finite 1, finite 1, CatalogDraft.Drawn.empty.perform
    [.site "mill" [finite 8, finite 0], .node "near" 0 [⟨finite 1, finite 0, finite 0⟩],
      .node "far" 0 [⟨finite 36000, finite 125, finite 0⟩]], ?_, ?_⟩
  · with_unfolding_all rfl
  · with_unfolding_all rfl

theorem workflow_submitted (submitted : ℚ) : (workflow submitted).Submitted := by
  refine ⟨⟨_, (WorkflowDraft.Drawn.empty 4 "pair" (finite submitted) none).perform
    [.job "first" (finite 0), .job "second" (finite 36000), .dependency 0 1,
      .output 0 ⟨"flour", finite 3600, none⟩, .input 1 ⟨"salt", finite 3600, none⟩,
      .input 1 ⟨"flour", finite 3600, none⟩], ?_⟩, submitted, rfl⟩
  cbv

theorem metrics_eq (submitted : ℚ) :
    Metrics.ofWorkflow (workflow submitted) catalog .siteAggregated .mean = .ok metrics := by
  with_unfolding_all rfl

/-- After the last number the window of the second job is a whole cycle at its mean price, but its
two transfers are two hours at the price of the last number. -/
theorem late_bills_differ : catalog.Drafted ∧ (workflow late).Submitted ∧
    Metrics.ofWorkflow (workflow late) catalog .siteAggregated .mean = .ok metrics ∧
    (∀ job ∈ (workflow late).jobs, job.parents.length ≤ 1) ∧
    ([StagingBilling.readyWindow, .perTransfer].map fun billing =>
      ((Pass.run ((problem late).billedBy billing) planner.timelines [0, 1]).run
        planner.generator).1.toOption.map fun solution => solution.placements.map fun placement =>
          (placement.node.id, placement.level, placement.cost)) =
      [some [(0, 0, finite 0), (1, 0, finite 1)], some [(0, 0, finite 0), (1, 0, finite 0)]] := by
  refine ⟨catalog_drafted, workflow_submitted late, metrics_eq late, by decide, ?_⟩
  unfold Pass.run
  unfold Pass.sweeps
  unfold Pass.sweeps
  decide +kernel

/-- The first job has run on the near node, in no time. -/
def firstPlaced : Pass (Exact ℚ) where
  timelines := ⟨[⟨[⟨finite 1800, finite 1800, ⟨4, 0⟩⟩]⟩, .idle]⟩
  placed := [⟨⟨near, 0, finite 1800, finite 1800, finite 1800, finite 0, finite 0⟩, 0⟩]

theorem firstPlaced_reached :
    Pass.Reached (problem 1800) planner.timelines firstPlaced := by
  obtain ⟨request, hrequest⟩ : ∃ request,
      (Pass.start planner.timelines).request (problem 1800) first = .ok request := ⟨_, rfl⟩
  have hnode : near ∈ request.problem.catalog.nodes := by
    rw [(Pass.asks_of_request hrequest).1.problem_eq]
    exact List.mem_cons_self
  have hreached := Pass.Reached.place _ first request _ .start List.mem_cons_self (by decide)
    hrequest (Request.evaluateFastest_offered hnode)
  cases hrequest
  with_unfolding_all exact hreached

/-- From half an hour on, both ways charge 1 for the staging of the second job on the far node, with
the price of one second for its run. -/
theorem early_bills_agree : catalog.Drafted ∧ (workflow 1800).Submitted ∧
    Metrics.ofWorkflow (workflow 1800) catalog .siteAggregated .mean = .ok metrics ∧
    (∀ node, (planner.timelines.ofNode node).Sound) ∧
    Pass.Reached (problem 1800) planner.timelines firstPlaced ∧
    second ∈ (workflow 1800).jobs ∧ (∀ parent ∈ second.parents, firstPlaced.isPlaced parent = true) ∧
    ∃ window transfers,
      firstPlaced.request ((problem 1800).billedBy .readyWindow) second = .ok window ∧
      firstPlaced.request ((problem 1800).billedBy .perTransfer) second = .ok transfers ∧
      window.begin = finite 1800 ∧ window.readyTime far = finite 9000 ∧
      Tariff.HoursInRange (1800 : ℚ) 9000 ∧
      (window.evaluate far (window.readyTime far) (far.fastest, 0)).cost = finite (1 + 1 / 3600) ∧
      transfers.evaluate far (transfers.readyTime far) (far.fastest, 0) =
        window.evaluate far (window.readyTime far) (far.fastest, 0) := by
  have hsound : ∀ node, (planner.timelines.ofNode node).Sound := Timelines.sound_idle _
  have hjob : second ∈ (workflow 1800).jobs := List.mem_cons_of_mem _ List.mem_cons_self
  have hparents : ∀ parent ∈ second.parents, firstPlaced.isPlaced parent = true := by decide
  obtain ⟨window, transfers, hwindow, htransfers, hnodes⟩ :=
    Pass.Reached.staging_bills_agree catalog_drafted (workflow_submitted 1800) (metrics_eq 1800)
      hsound firstPlaced_reached hjob hparents
  obtain ⟨b, r, hbegin, hready, -, -, -, hagree⟩ :=
    hnodes far (List.mem_cons_of_mem _ List.mem_cons_self)
  have htimes : (firstPlaced.request ((problem 1800).billedBy .readyWindow) second).toOption.map
      (fun request => (request.begin, request.readyTime far,
        (request.evaluate far (request.readyTime far) (far.fastest, 0)).cost)) =
          some (finite 1800, finite 9000, finite (1 + 1 / 3600)) := by
    decide +kernel
  simp only [hwindow, Except.toOption, Option.map_some, Option.some.injEq, Prod.mk.injEq] at htimes
  obtain rfl := Exact.finite.inj (hbegin.symm.trans htimes.1)
  obtain rfl := Exact.finite.inj (hready.symm.trans htimes.2.1)
  have hrange : Tariff.HoursInRange (1800 : ℚ) 9000 :=
    Tariff.hoursInRange_of_le (by norm_num) (by norm_num)
  exact ⟨catalog_drafted, workflow_submitted 1800, metrics_eq 1800, hsound, firstPlaced_reached,
    hjob, hparents, window, transfers, hwindow, htransfers, hbegin, hready, hrange,
    htimes.2.2, hagree (.inr ⟨rfl, hrange⟩) 0 far.fastest rfl⟩

end LateHours

end WattPlan
