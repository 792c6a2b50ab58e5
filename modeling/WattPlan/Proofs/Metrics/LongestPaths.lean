import WattPlan.Proofs.Durations
import WattPlan.Proofs.Workflow.Paths

/-!
# Metrics as longest paths

Each of the three passes takes the largest value over the neighbours of a job. Where the estimates
weigh jobs by `w` and dependencies by `c`, the earliest finish of a job is therefore the total of the
longest path that ends in it, the upward rank that of the longest path that starts in it, and the
downward rank lacks the weight of the job to the earliest finish. The largest earliest finish and the
largest upward rank are both the total of the longest path of the workflow: `Metrics.longest_paths`.
-/

namespace WattPlan

open Exact

/-- A traversal that keeps the larger of its value and one that it reads for each member comes to the
largest of them all. -/
theorem exists_of_foldlM_max {α β ε : Type} [Scalar α] {read : β → Except ε α} {value : β → α → α}
    {xs : List β} {start last : α}
    (h : xs.foldlM (fun acc x => do
      let y ← read x
      .ok (Scalar.max acc (value x y))) start = .ok last) :
    ∃ values, List.Forall₂ (fun x v => ∃ y, read x = .ok y ∧ v = value x y) xs values ∧
      last = Scalar.maxFrom start values := by
  induction xs generalizing start with
  | nil =>
      cases h
      exact ⟨[], .nil, rfl⟩
  | cons x xs ih =>
      rw [List.foldlM_cons] at h
      obtain ⟨next, hnext, hrest⟩ := exists_of_bind_eq_ok h
      obtain ⟨y, hread, hmax⟩ := exists_of_bind_eq_ok hnext
      obtain rfl := Except.ok.inj hmax
      obtain ⟨values, hvalues, rfl⟩ := ih hrest
      exact ⟨value x y :: values, .cons ⟨y, hread, rfl⟩ hvalues, rfl⟩

variable {K : Type} [Field K] [LinearOrder K] [FloorRing K] [Exponentials K]

/-- Totals that are a base, or those over a neighbour with an edge to it and the base, are largest
over the neighbour with the largest totals and edge. -/
theorem isGreatest_of_maxFrom [IsStrictOrderedRing K] {nexts : List JobId} {S : Set K}
    {T : JobId → Set K} {edge : JobId → K} {base : K} {values : List (Exact K)}
    (hvalues : List.Forall₂ (fun next value => ∃ t, IsGreatest (T next) t ∧
      value = finite (t + edge next)) nexts values)
    (hS : ∀ total, total ∈ S ↔
      total = base ∨ ∃ next ∈ nexts, ∃ t ∈ T next, total = t + edge next + base) :
    ∃ m, Scalar.maxFrom 0 values = finite m ∧ IsGreatest S (m + base) := by
  have hfinite : ∀ value ∈ values, value.IsFinite := by
    intro value hvalue
    obtain ⟨next, -, t, -, rfl⟩ := forall₂_exists_left hvalues hvalue
    exact ⟨_, rfl⟩
  obtain ⟨m, hmax, hzero, hall, hmem⟩ := maxFrom_finite values hfinite 0
  refine ⟨m, by rw [zero_eq, hmax], (hS _).2 ?_, fun total htotal => ?_⟩
  · rcases hmem with rfl | hmem
    · exact .inl (zero_add base)
    · obtain ⟨next, hnext, t, ht, hvalue⟩ := forall₂_exists_left hvalues hmem
      exact .inr ⟨next, hnext, t, ht.1, by rw [Exact.finite.inj hvalue]⟩
  · rcases (hS total).1 htotal with rfl | ⟨next, hnext, t, ht, rfl⟩
    · linarith
    · obtain ⟨value, hvalue, largest, hlargest, rfl⟩ := forall₂_exists_right hvalues hnext
      have hle := le_finite.1 (hall _ hvalue)
      have hle' := hlargest.2 ht
      linarith

section Passes

variable {workflow : Workflow (Exact K)} {catalog : Catalog (Exact K)} {job : Job (Exact K)}
  {w : JobId → K} {c : JobId → JobId → K}

namespace Estimates

variable {estimates : Estimates (Exact K)} {values : List (Option (Exact K))} {value : Exact K}

/-- Estimates weigh the jobs of a workflow and the dependencies between them by finite numbers. -/
structure Weighs (estimates : Estimates (Exact K)) (workflow : Workflow (Exact K))
    (w : JobId → K) (c : JobId → JobId → K) : Prop where
  weight : ∀ job ∈ workflow.jobs, estimates.weight job = finite (w job.id)
  arrivals : ∀ job ∈ workflow.jobs,
    estimates.arrivals job = job.parents.map fun parent => (parent, finite (c parent job.id))

namespace Weighs

/-- The transfer to a job that is searched for a parent is the one at the place of the parent. -/
theorem transferFrom (h : estimates.Weighs workflow w c) (hjob : job ∈ workflow.jobs)
    {parent : JobId} (hparent : parent ∈ job.parents) :
    estimates.transferFrom job parent = finite (c parent job.id) := by
  have hlookup : ∀ parents : List JobId, parent ∈ parents →
      (parents.map fun id => (id, finite (c id job.id))).lookup parent =
        some (finite (c parent job.id)) := by
    intro parents
    induction parents with
    | nil => simp
    | cons first rest ih =>
        intro hmem
        by_cases heq : parent = first
        · simp [heq]
        · simp only [List.map_cons, List.lookup_cons, beq_eq_false_iff_ne.2 heq]
          exact ih ((List.mem_cons.1 hmem).resolve_left heq)
  rw [Estimates.transferFrom, h.arrivals job hjob, hlookup _ hparent]
  rfl

variable [IsStrictOrderedRing K]

/-- If the parents of a job have the totals of the longest paths that end in them, its earliest finish
is that of the longest path that ends in the job. -/
theorem earliestFinish_isGreatest (h : estimates.Weighs workflow w c)
    (harranged : workflow.Arranged) (hjob : job ∈ workflow.jobs)
    (hvalues : ∀ (other : JobId) (v : Exact K), values[other]? = some (some v) →
      ∃ t, v = finite t ∧ IsGreatest (workflow.totalsTo w c other) t)
    (hscore : estimates.earliestFinish workflow values job = .ok value) :
    ∃ t, value = finite t ∧ IsGreatest (workflow.totalsTo w c job.id) t := by
  obtain ⟨start, hstart, hvalue⟩ := exists_of_bind_eq_ok hscore
  obtain rfl := Except.ok.inj hvalue
  rw [h.arrivals job hjob, List.foldlM_map] at hstart
  obtain ⟨finishes, hfinishes, rfl⟩ := exists_of_foldlM_max hstart
  have hparents : List.Forall₂ (fun parent finish => ∃ t,
      IsGreatest (workflow.totalsTo w c parent) t ∧ finish = finite (t + c parent job.id))
      job.parents finishes := by
    refine hfinishes.imp fun parent finish hfinish => ?_
    obtain ⟨y, hread, rfl⟩ := hfinish
    obtain ⟨t, rfl, ht⟩ := hvalues parent y (getElem?_of_valueOf_eq_ok hread)
    exact ⟨t, ht, rfl⟩
  obtain ⟨m, hmax, hgreatest⟩ :=
    isGreatest_of_maxFrom hparents fun total => harranged.mem_totalsTo hjob
  exact ⟨m + w job.id, by rw [hmax, h.weight job hjob, add_finite], hgreatest⟩

/-- If the children of a job have the totals of the longest paths that start in them, its upward rank
is that of the longest path that starts in the job. -/
theorem upwardRank_isGreatest (h : estimates.Weighs workflow w c)
    (harranged : workflow.Arranged) (hjob : job ∈ workflow.jobs)
    (hvalues : ∀ (other : JobId) (v : Exact K), values[other]? = some (some v) →
      ∃ t, v = finite t ∧ IsGreatest (workflow.totalsFrom w c other) t)
    (hscore : estimates.upwardRank workflow values job = .ok value) :
    ∃ t, value = finite t ∧ IsGreatest (workflow.totalsFrom w c job.id) t := by
  obtain ⟨tail, htail, hvalue⟩ := exists_of_bind_eq_ok hscore
  obtain rfl := Except.ok.inj hvalue
  obtain ⟨ranks, hranks, rfl⟩ := exists_of_foldlM_max htail
  have hmem := (List.forall₂_and_left (p := (· ∈ job.children)) _ _).2 ⟨fun _ h => h, hranks⟩
  have hchildren : List.Forall₂ (fun child rank => ∃ t,
      IsGreatest (workflow.totalsFrom w c child) t ∧ rank = finite (t + c job.id child))
      job.children ranks := by
    refine hmem.imp fun child rank hrank => ?_
    obtain ⟨hchild, y, hread, rfl⟩ := hrank
    obtain ⟨t, rfl, ht⟩ := hvalues child y (getElem?_of_valueOf_eq_ok hread)
    obtain ⟨reader, hreader, hparent⟩ := harranged.child hjob hchild
    refine ⟨t, ht, ?_⟩
    rw [hreader, Option.map_some, Option.getD_some,
      h.transferFrom (Workflow.mem_of_job? hreader) hparent, harranged.id_eq hreader, add_finite]
  obtain ⟨m, hmax, hgreatest⟩ :=
    isGreatest_of_maxFrom hchildren fun total => harranged.mem_totalsFrom hjob
  exact ⟨m + w job.id, by rw [hmax, h.weight job hjob, add_finite, add_comm], hgreatest⟩

/-- If the downward ranks of the parents of a job lack their weights to the totals of the longest paths
that end in them, that of the job lacks its weight to the longest path that ends in the job. -/
theorem downwardRank_isGreatest (h : estimates.Weighs workflow w c)
    (harranged : workflow.Arranged) (hjob : job ∈ workflow.jobs)
    (hvalues : ∀ (other : JobId) (v : Exact K), values[other]? = some (some v) →
      ∃ t, v = finite t ∧ IsGreatest (workflow.totalsTo w c other) (t + w other))
    (hscore : estimates.downwardRank workflow values job = .ok value) :
    ∃ t, value = finite t ∧ IsGreatest (workflow.totalsTo w c job.id) (t + w job.id) := by
  unfold downwardRank at hscore
  rw [h.arrivals job hjob, List.foldlM_map] at hscore
  obtain ⟨ranks, hranks, rfl⟩ := exists_of_foldlM_max hscore
  have hmem := (List.forall₂_and_left (p := (· ∈ job.parents)) _ _).2 ⟨fun _ h => h, hranks⟩
  have hparents : List.Forall₂ (fun parent rank => ∃ t,
      IsGreatest (workflow.totalsTo w c parent) t ∧ rank = finite (t + c parent job.id))
      job.parents ranks := by
    refine hmem.imp fun parent rank hrank => ?_
    obtain ⟨hparent, y, hread, rfl⟩ := hrank
    obtain ⟨t, rfl, ht⟩ := hvalues parent y (getElem?_of_valueOf_eq_ok hread)
    obtain ⟨upper, hupper, -, -⟩ := harranged.parent hjob hparent
    refine ⟨t + w parent, ht, ?_⟩
    rw [hupper, Option.map_some, Option.getD_some, h.weight upper (Workflow.mem_of_job? hupper),
      harranged.id_eq hupper, add_finite, add_finite]
  obtain ⟨m, hmax, hgreatest⟩ :=
    isGreatest_of_maxFrom hparents fun total => harranged.mem_totalsTo hjob
  exact ⟨m, hmax, hgreatest⟩

end Weighs

/-- The weight of the job of a number, itself a number. -/
def weightOf (estimates : Estimates (Exact K)) (workflow : Workflow (Exact K)) (id : JobId) : K :=
  (((workflow.job? id).map estimates.weight).getD 0).value

/-- The mean time of the data that one job reads of another one, as a number. -/
def transferOf (catalog : Catalog (Exact K)) (averaging : TransferAveraging)
    (workflow : Workflow (Exact K)) (writer reader : JobId) : K :=
  (((workflow.job? reader).bind fun job => (workflow.job? writer).map fun parent =>
    catalog.meanTransfer averaging (job.dataFrom parent)).getD 0).value

/-- The weight of a job is looked up by its number. -/
theorem weightOf_id (harranged : workflow.Arranged) (hjob : job ∈ workflow.jobs) :
    estimates.weightOf workflow job.id = (estimates.weight job).value := by
  rw [weightOf, harranged.job?_id hjob]
  rfl

/-- The mean time of the data that a job reads is looked up by the numbers of the two jobs. -/
theorem transferOf_id (harranged : workflow.Arranged) (hjob : job ∈ workflow.jobs)
    {parent : Job (Exact K)} (hparent : parent ∈ workflow.jobs) (averaging : TransferAveraging) :
    transferOf catalog averaging workflow parent.id job.id =
      (catalog.meanTransfer averaging (job.dataFrom parent)).value := by
  rw [transferOf, harranged.job?_id hjob, harranged.job?_id hparent]
  rfl

/-- The weight of a job is the time it takes at the reference speed and the mean time of its
staging. -/
theorem weight_eq (harranged : workflow.Arranged) (hjob : job ∈ workflow.jobs)
    (averaging : TransferAveraging) (speed : SpeedReference) :
    (ofWorkflow workflow catalog averaging speed).weight job =
      job.length / catalog.referenceSpeed speed +
        Scalar.mean (catalog.nodes.map (catalog.stagingTime job)) := by
  have hget : workflow.jobs[job.id]? = some job := harranged.job?_id hjob
  simp [weight, ofWorkflow, List.getD_eq_getElem?_getD, hget]

/-- The arrivals at a job are its parents with the mean times of the data between two nodes. -/
theorem arrivals_eq (harranged : workflow.Arranged) (hjob : job ∈ workflow.jobs)
    (averaging : TransferAveraging) (speed : SpeedReference) {time : JobId → Exact K}
    (htime : ∀ parent ∈ workflow.jobs,
      catalog.meanTransfer averaging (job.dataFrom parent) = time parent.id) :
    (ofWorkflow workflow catalog averaging speed).arrivals job =
      job.parents.map fun parent => (parent, time parent) := by
  have hget : workflow.jobs[job.id]? = some job := harranged.job?_id hjob
  have htimes : (ofWorkflow workflow catalog averaging speed).transfers.getD job.id [] =
      job.parents.map time := by
    simp only [ofWorkflow, List.getD_eq_getElem?_getD, List.getElem?_map, hget, Option.map_some,
      Option.getD_some]
    refine List.map_congr_left fun parent hparent => ?_
    obtain ⟨upper, hupper, -⟩ := harranged.parent hjob hparent
    rw [hupper, ← harranged.id_eq hupper]
    exact htime upper (Workflow.mem_of_job? hupper)
  rw [arrivals, htimes, List.map_prod_left_eq_zip]

/-- On a drafted catalog a drafted workflow is weighed by its estimates: a job by the time it takes at
the reference speed with the mean time of its staging, a dependency by the mean time of its data
between two nodes. -/
theorem exists_weighs [IsStrictOrderedRing K] (hcatalog : catalog.Drafted)
    (hworkflow : workflow.Drafted) (averaging : TransferAveraging) (speed : SpeedReference) :
    ∃ (w : JobId → K) (c : JobId → JobId → K),
      (ofWorkflow workflow catalog averaging speed).Weighs workflow w c ∧
      (∀ job ∈ workflow.jobs, 0 ≤ w job.id ∧ job.length / catalog.referenceSpeed speed +
        Scalar.mean (catalog.nodes.map (catalog.stagingTime job)) = finite (w job.id)) ∧
      ∀ job ∈ workflow.jobs, ∀ parent ∈ workflow.jobs, 0 ≤ c parent.id job.id ∧
        catalog.meanTransfer averaging (job.dataFrom parent) = finite (c parent.id job.id) := by
  have harranged := hworkflow.arranged
  have hweight : ∀ job ∈ workflow.jobs,
      ((ofWorkflow workflow catalog averaging speed).weight job).IsAmount := fun job hjob =>
    weight_amount hcatalog hworkflow.measured hjob
  have htransfer : ∀ job ∈ workflow.jobs, ∀ parent ∈ workflow.jobs,
      (catalog.meanTransfer averaging (job.dataFrom parent)).IsAmount := fun job hjob parent _ =>
    hcatalog.meanTransfer_amount (hworkflow.measured.dataFrom_amount hjob) averaging
  refine ⟨(ofWorkflow workflow catalog averaging speed).weightOf workflow,
    transferOf catalog averaging workflow, ⟨?_, ?_⟩, ?_, ?_⟩
  · intro job hjob
    rw [weightOf_id harranged hjob]
    exact (hweight job hjob).eq_value.1
  · intro job hjob
    refine arrivals_eq harranged hjob averaging speed fun parent hparent => ?_
    rw [transferOf_id harranged hjob hparent]
    exact (htransfer job hjob parent hparent).eq_value.1
  · intro job hjob
    rw [← weight_eq harranged hjob averaging, weightOf_id harranged hjob]
    exact (hweight job hjob).eq_value.symm
  · intro job hjob parent hparent
    rw [transferOf_id harranged hjob hparent]
    exact (htransfer job hjob parent hparent).eq_value.symm

end Estimates

namespace Metrics

variable {metrics : Metrics (Exact K)}

/-- What holds of each number below a bound and the member at its place holds of the member that is
looked up for it. -/
theorem getD_of_forall₂_range {β : Type} {P : Nat → β → Prop} {size place : Nat} {xs : List β}
    {otherwise : β} (h : List.Forall₂ P (List.range size) xs) (hplace : place < size) :
    P place (xs.getD place otherwise) := by
  have hlength : xs.length = size := by rw [← h.length_eq, List.length_range]
  have hget := h.get (by simpa using hplace) (hlength ▸ hplace)
  simpa [List.getD_eq_getElem?_getD, hlength, hplace] using hget

/-- Metrics tell the longest paths of a workflow whose jobs weigh `w` and whose dependencies weigh
`c`. -/
structure FollowsPaths (metrics : Metrics (Exact K)) (workflow : Workflow (Exact K))
    (w : JobId → K) (c : JobId → JobId → K) : Prop where
  earliestFinish : ∀ job ∈ workflow.jobs, ∃ t, metrics.earliestFinish job.id = finite t ∧
    IsGreatest (workflow.totalsTo w c job.id) t
  upwardRank : ∀ job ∈ workflow.jobs, ∃ t, metrics.upwardRank job.id = finite t ∧
    IsGreatest (workflow.totalsFrom w c job.id) t
  downwardRank : ∀ job ∈ workflow.jobs,
    metrics.downwardRank job.id + finite (w job.id) = metrics.earliestFinish job.id
  criticalPath : ∃ t, metrics.criticalPath = finite t ∧ metrics.maxUpwardRank = finite t ∧
    IsGreatest (workflow.totals w c) t
  exists_critical : workflow.jobs ≠ [] → ∃ path, path ≠ [] ∧ workflow.IsPath path ∧
    finite (pathTotal w c path) = metrics.criticalPath
  rank_sum_le : ∀ job ∈ workflow.jobs,
    metrics.upwardRank job.id + metrics.downwardRank job.id ≤ metrics.criticalPath
  rank_sum_eq_iff : ∀ job ∈ workflow.jobs,
    metrics.upwardRank job.id + metrics.downwardRank job.id = metrics.criticalPath ↔
      ∃ path, workflow.IsPath path ∧ job.id ∈ path ∧
        finite (pathTotal w c path) = metrics.criticalPath

/-- The largest of the values of all jobs is the total of the longest path, if each value is that of
the longest path on a side of its job. -/
theorem isGreatest_totals [IsStrictOrderedRing K] (harranged : workflow.Arranged)
    {T : JobId → Set K} {values : List (Exact K)}
    (hvalues : List.Forall₂ (fun id value => ∃ t, value = finite t ∧ IsGreatest (T id) t)
      (List.range workflow.jobs.length) values)
    (htotals : ∀ total, total ∈ workflow.totals w c ↔
      total = 0 ∨ ∃ id ∈ workflow.jobIds, total ∈ T id) :
    ∃ t, Scalar.maxFrom 0 values = finite t ∧ IsGreatest (workflow.totals w c) t := by
  have hedges : List.Forall₂ (fun id value => ∃ t, IsGreatest (T id) t ∧
      value = finite (t + (fun _ => 0) id)) workflow.jobIds values := by
    rw [harranged.jobIds_eq]
    refine hvalues.imp fun id value hvalue => ?_
    obtain ⟨t, rfl, ht⟩ := hvalue
    exact ⟨t, ht, by rw [add_zero]⟩
  have hbase : ∀ total, total ∈ workflow.totals w c ↔ total = 0 ∨
      ∃ id ∈ workflow.jobIds, ∃ t ∈ T id, total = t + (fun _ => 0) id + 0 := by
    simpa using htotals
  obtain ⟨m, hmax, hgreatest⟩ := isGreatest_of_maxFrom hedges hbase
  exact ⟨m, hmax, by rwa [add_zero] at hgreatest⟩

/-- What the three passes give tells the longest paths, if the estimates weigh the workflow. -/
theorem followsPaths_of_weighs [IsStrictOrderedRing K] (harranged : workflow.Arranged)
    (hweighs : metrics.toEstimates.Weighs workflow w c)
    (hweight : ∀ id ∈ workflow.jobIds, 0 ≤ w id)
    (hfinishes : Estimates.pass workflow .earliestFinish
      (metrics.toEstimates.earliestFinish workflow) workflow.depthOrder =
        .ok metrics.earliestFinishes)
    (hups : Estimates.pass workflow .upwardRank (metrics.toEstimates.upwardRank workflow)
      workflow.depthOrder.reverse = .ok metrics.upwardRanks)
    (hdowns : Estimates.pass workflow .downwardRank (metrics.toEstimates.downwardRank workflow)
      workflow.depthOrder = .ok metrics.downwardRanks) : metrics.FollowsPaths workflow w c := by
  have hfinish := Estimates.pass_preserves
    (P := fun id v => ∃ t, v = finite t ∧ IsGreatest (workflow.totalsTo w c id) t)
    (fun values id job hjob value hvalues hscore => harranged.id_eq hjob ▸
      hweighs.earliestFinish_isGreatest harranged (Workflow.mem_of_job? hjob) hvalues hscore)
    hfinishes
  have hup := Estimates.pass_preserves
    (P := fun id v => ∃ t, v = finite t ∧ IsGreatest (workflow.totalsFrom w c id) t)
    (fun values id job hjob value hvalues hscore => harranged.id_eq hjob ▸
      hweighs.upwardRank_isGreatest harranged (Workflow.mem_of_job? hjob) hvalues hscore)
    hups
  have hdown := Estimates.pass_preserves
    (P := fun id v => ∃ t, v = finite t ∧ IsGreatest (workflow.totalsTo w c id) (t + w id))
    (fun values id job hjob value hvalues hscore => harranged.id_eq hjob ▸
      hweighs.downwardRank_isGreatest harranged (Workflow.mem_of_job? hjob) hvalues hscore)
    hdowns
  have hto : ∀ job ∈ workflow.jobs, ∃ t, metrics.earliestFinish job.id = finite t ∧
      IsGreatest (workflow.totalsTo w c job.id) t := fun job hjob =>
    getD_of_forall₂_range hfinish (harranged.mem_jobIds.1 (List.mem_map_of_mem hjob))
  have hfrom : ∀ job ∈ workflow.jobs, ∃ t, metrics.upwardRank job.id = finite t ∧
      IsGreatest (workflow.totalsFrom w c job.id) t := fun job hjob =>
    getD_of_forall₂_range hup (harranged.mem_jobIds.1 (List.mem_map_of_mem hjob))
  have hrank : ∀ job ∈ workflow.jobs, ∃ t, metrics.downwardRank job.id = finite t ∧
      IsGreatest (workflow.totalsTo w c job.id) (t + w job.id) := fun job hjob =>
    getD_of_forall₂_range hdown (harranged.mem_jobIds.1 (List.mem_map_of_mem hjob))
  obtain ⟨longest, hcritical, hlongest⟩ := isGreatest_totals harranged hfinish fun total =>
    Workflow.mem_totals_iff_last
  obtain ⟨largest, hlargest, hlongest'⟩ := isGreatest_totals harranged hup fun total =>
    Workflow.mem_totals_iff_first
  obtain rfl := hlongest.unique hlongest'
  -- Over a job the two ranks make up the longest path through it.
  have hsum : ∀ job ∈ workflow.jobs, ∃ t,
      metrics.upwardRank job.id + metrics.downwardRank job.id = finite t ∧ t ≤ longest ∧
        (t = longest ↔ ∃ path, workflow.IsPath path ∧ job.id ∈ path ∧
          pathTotal w c path = longest) := by
    intro job hjob
    obtain ⟨a, ha, hafter⟩ := hfrom job hjob
    obtain ⟨d, hd, hbefore⟩ := hrank job hjob
    have hjoin := Workflow.join_le_longest hbefore hafter hlongest
    rw [show d + w job.id + a - w job.id = a + d by ring] at hjoin
    exact ⟨a + d, by rw [ha, hd, add_finite], hjoin⟩
  have hvalue : metrics.criticalPath = finite longest := hcritical
  constructor
  case earliestFinish => exact hto
  case upwardRank => exact hfrom
  case downwardRank =>
    intro job hjob
    obtain ⟨t, ht, hgreatest⟩ := hto job hjob
    obtain ⟨d, hd, hgreatest'⟩ := hrank job hjob
    rw [ht, hd, add_finite, hgreatest.unique hgreatest']
  case criticalPath => exact ⟨longest, hcritical, hlargest, hlongest⟩
  case exists_critical =>
    intro hne
    obtain ⟨path, hpath, hsteps, htotal⟩ := Workflow.exists_longest_ne_nil hweight hlongest hne
    exact ⟨path, hpath, hsteps, by rw [hvalue, htotal]⟩
  case rank_sum_le =>
    intro job hjob
    obtain ⟨t, ht, hle, -⟩ := hsum job hjob
    rwa [ht, hvalue, le_finite]
  case rank_sum_eq_iff =>
    intro job hjob
    obtain ⟨t, ht, -, hiff⟩ := hsum job hjob
    simpa only [ht, hvalue, Exact.finite.injEq] using hiff

/-- The metrics of a drafted workflow on a drafted catalog tell its longest paths. A job weighs the
time it takes at the reference speed and the mean time of its staging, a dependency the mean time of
its data between two nodes, and none of these weights is negative. -/
theorem longest_paths [IsStrictOrderedRing K] (hcatalog : catalog.Drafted)
    (hworkflow : workflow.Drafted) (averaging : TransferAveraging) (speed : SpeedReference) :
    ∃ (metrics : Metrics (Exact K)) (w : JobId → K) (c : JobId → JobId → K),
      ofWorkflow workflow catalog averaging speed = .ok metrics ∧
      (∀ job ∈ workflow.jobs, 0 ≤ w job.id ∧ job.length / catalog.referenceSpeed speed +
        Scalar.mean (catalog.nodes.map (catalog.stagingTime job)) = finite (w job.id)) ∧
      (∀ job ∈ workflow.jobs, ∀ parent ∈ workflow.jobs, 0 ≤ c parent.id job.id ∧
        catalog.meanTransfer averaging (job.dataFrom parent) = finite (c parent.id job.id)) ∧
      metrics.FollowsPaths workflow w c := by
  have harranged := hworkflow.arranged
  obtain ⟨metrics, hmetrics, -⟩ := ofWorkflow_eq_ok harranged catalog averaging speed
  obtain ⟨hestimates, hfinishes, hups, hdowns⟩ := passes_of_ofWorkflow hmetrics
  obtain ⟨w, c, hweighs, hweights, htransfers⟩ :=
    Estimates.exists_weighs hcatalog hworkflow averaging speed
  have hnonneg : ∀ id ∈ workflow.jobIds, 0 ≤ w id := by
    intro id hid
    obtain ⟨job, hjob, rfl⟩ := List.mem_map.1 hid
    exact (hweights job hjob).1
  exact ⟨metrics, w, c, hmetrics, hweights, htransfers,
    followsPaths_of_weighs harranged (hestimates ▸ hweighs) hnonneg hfinishes hups hdowns⟩

end Metrics

end Passes

/-!
## A shortcut

Three jobs, of which the last one reads a little of the second one and much of the first one. On three
nodes the way past the second job takes longer than the way over it.
-/

namespace Shortcut

open WithoutExponentials

def workflow : Workflow (Exact ℚ) where
  id := 1
  name := "shortcut"
  submittedAt := finite 0
  reliabilityGoal := none
  deadline := none
  jobs :=
    [⟨0, "read", finite 3, 0, [], [1, 2], [], [],
        [⟨"index", finite 15, none⟩, ⟨"text", finite 90, none⟩], none⟩,
      ⟨1, "sort", finite 6, 1, [0], [2], [], [⟨"index", finite 15, none⟩], [], none⟩,
      ⟨2, "print", finite 3, 2, [0, 1], [], [], [⟨"text", finite 90, none⟩], [], none⟩]

theorem workflow_drafted : workflow.Drafted := by
  refine ⟨_, (WorkflowDraft.Drawn.empty 1 "shortcut" (finite 0) none).perform
    [.job "read" (finite 3), .job "sort" (finite 6), .job "print" (finite 3), .dependency 0 1,
      .dependency 0 2, .dependency 1 2, .output 0 ⟨"index", finite 15, none⟩,
      .output 0 ⟨"text", finite 90, none⟩, .input 1 ⟨"index", finite 15, none⟩,
      .input 2 ⟨"text", finite 90, none⟩], ?_⟩
  with_unfolding_all rfl

/-- The longest path takes six seconds, and it does not lead over the second job. -/
theorem critical_past_second : ThreeNodes.catalog.Drafted ∧ workflow.Drafted ∧
    ∃ (metrics : Metrics (Exact ℚ)) (w : JobId → ℚ) (c : JobId → JobId → ℚ),
      Metrics.ofWorkflow workflow ThreeNodes.catalog .nodePairs .mean = .ok metrics ∧
      metrics.FollowsPaths workflow w c ∧ metrics.criticalPath = finite 6 ∧
      ¬ ∃ path, workflow.IsPath path ∧ 1 ∈ path ∧ pathTotal w c path = 6 := by
  obtain ⟨metrics, w, c, hmetrics, -, -, hfollows⟩ := Metrics.longest_paths
    ThreeNodes.catalog_drafted workflow_drafted .nodePairs .mean
  have hvalues : (Metrics.ofWorkflow workflow ThreeNodes.catalog .nodePairs .mean).toOption.map
      (fun metrics => (metrics.criticalPath, metrics.upwardRank 1 + metrics.downwardRank 1)) =
        some (finite 6, finite (14 / 3)) := by
    decide +kernel
  simp only [hmetrics, Except.toOption, Option.map_some, Option.some.injEq, Prod.mk.injEq] at hvalues
  have hiff := hfollows.rank_sum_eq_iff _ (show _ ∈ workflow.jobs from
    List.mem_cons_of_mem _ List.mem_cons_self)
  refine ⟨ThreeNodes.catalog_drafted, workflow_drafted, metrics, w, c, hmetrics, hfollows,
    hvalues.1, ?_⟩
  rintro ⟨path, hpath, hmem, htotal⟩
  have hsum := hiff.2 ⟨path, hpath, hmem, by rw [htotal, hvalues.1]⟩
  rw [hvalues.2, hvalues.1] at hsum
  exact absurd (Exact.finite.inj hsum) (by norm_num)

end Shortcut

end WattPlan
