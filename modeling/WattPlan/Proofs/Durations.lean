import Mathlib.Algebra.Order.BigOperators.Group.List
import WattPlan.Proofs.Catalog.Levels
import WattPlan.Proofs.Catalog.Transfers
import WattPlan.Proofs.Metrics
import WattPlan.Proofs.Workflow.Draft

/-!
# Exact durations

On a drafted catalog the jobs of a measured workflow are staged, run and sent from node to node in
finite times. The mean times that are estimated for them are finite, too, and so is what the passes
make of these: the critical path is a number (`Metrics.criticalPath_finite`).
-/

namespace WattPlan

open Exact

variable {K : Type} [Field K] [LinearOrder K] [FloorRing K] [Exponentials K]
  {catalog : Catalog (Exact K)} {workflow : Workflow (Exact K)} {job writer : Job (Exact K)}

/-- What holds of all entries of a list and of a default holds of every lookup. -/
theorem getD_of_forall {β : Type} {P : β → Prop} {xs : List β} {otherwise : β}
    (h : ∀ x ∈ xs, P x) (hotherwise : P otherwise) (place : Nat) :
    P (xs.getD place otherwise) := by
  rw [List.getD_eq_getElem?_getD]
  cases hplace : xs[place]? with
  | none => exact hotherwise
  | some x => exact h x (List.mem_of_getElem? hplace)

/-- Data takes a time in proportion to its size from node to node. -/
theorem Catalog.Drafted.exists_transferRate [IsStrictOrderedRing K] (h : catalog.Drafted)
    (source target : Node (Exact K)) :
    ∃ rate : K, 0 ≤ rate ∧
      ∀ x : K, catalog.transferTime (finite x) source target = finite (x * rate) := by
  obtain ⟨intra, inter, hintra, hinter, hwithin, hbetween⟩ := h.exists_rates
  refine ⟨linkRate intra inter source target, ?_,
    fun x => transferTime_eq hwithin hbetween x source target⟩
  unfold linkRate
  split_ifs
  · exact le_rfl
  · exact hintra
  · exact hinter

/-- An artifact takes a time in proportion to its size to a node. -/
theorem Catalog.Drafted.exists_fetchRate [IsStrictOrderedRing K] (h : catalog.Drafted)
    (location : Option NodeId) (target : Node (Exact K)) :
    ∃ rate : K, 0 ≤ rate ∧
      ∀ x : K, catalog.fetchTime (finite x) location target = finite (x * rate) := by
  unfold Catalog.fetchTime
  cases location.bind catalog.node? with
  | some source => exact h.exists_transferRate source target
  | none =>
      obtain ⟨-, inter, -, hinter, -, hbetween⟩ := h.exists_rates
      refine ⟨inter, hinter, fun x => ?_⟩
      dsimp only
      split
      · rename_i hnothing
        rw [zero_eq] at hnothing
        rw [of_decide_eq_true hnothing, zero_mul, zero_eq]
      · exact hbetween x

/-- A finite amount of data takes a finite time to a node. -/
theorem Catalog.Drafted.transferTime_finite [IsStrictOrderedRing K] (h : catalog.Drafted)
    {size : Exact K} (hsize : size.IsFinite) (source target : Node (Exact K)) :
    (catalog.transferTime size source target).IsFinite := by
  obtain ⟨x, rfl⟩ := hsize
  obtain ⟨rate, -, hrate⟩ := h.exists_transferRate source target
  exact ⟨x * rate, hrate x⟩

/-- The sizes of the inputs of a job of a measured workflow are amounts. -/
theorem Workflow.Measured.input_amount (h : workflow.Measured) (hjob : job ∈ workflow.jobs)
    {input : Artifact (Exact K)} (hinput : input ∈ job.storedInputs ++ job.parentInputs) :
    input.size.IsAmount :=
  isAmount_iff.1 ((h job hjob).2 input hinput)

/-- The stored inputs of a job are staged in an amount of time. -/
theorem Catalog.Drafted.stagingTime_amount [IsStrictOrderedRing K] (h : catalog.Drafted)
    (hmeasured : workflow.Measured) (hjob : job ∈ workflow.jobs) (node : Node (Exact K)) :
    (catalog.stagingTime job node).IsAmount := by
  refine IsAmount.sum fun time htime => ?_
  obtain ⟨input, hinput, rfl⟩ := List.mem_map.1 htime
  obtain ⟨x, hsize, hx⟩ := hmeasured.input_amount hjob (List.mem_append_left _ hinput)
  obtain ⟨rate, hnonneg, hrate⟩ := h.exists_fetchRate input.location node
  exact ⟨x * rate, by rw [hsize, hrate], mul_nonneg hx hnonneg⟩

/-- The stored inputs of a job are staged in a finite time. -/
theorem Catalog.Drafted.stagingTime_finite [IsStrictOrderedRing K] (h : catalog.Drafted)
    (hmeasured : workflow.Measured) (hjob : job ∈ workflow.jobs) (node : Node (Exact K)) :
    (catalog.stagingTime job node).IsFinite :=
  (h.stagingTime_amount hmeasured hjob node).isFinite

/-- What a job reads of another one is an amount. -/
theorem Workflow.Measured.dataFrom_amount [IsStrictOrderedRing K] (h : workflow.Measured)
    (hjob : job ∈ workflow.jobs) : (job.dataFrom writer).IsAmount := by
  refine IsAmount.sum fun size hsize => ?_
  obtain ⟨input, hinput, rfl⟩ := List.mem_map.1 hsize
  exact h.input_amount hjob (List.mem_append_right _ (List.mem_of_mem_filter hinput))

/-- What a job reads of another one is finite. -/
theorem Workflow.Measured.dataFrom_finite [IsStrictOrderedRing K] (h : workflow.Measured)
    (hjob : job ∈ workflow.jobs) : (job.dataFrom writer).IsFinite :=
  (h.dataFrom_amount hjob).isFinite

/-- A job of a measured workflow takes an amount of time at a level of a node. -/
theorem Catalog.Drafted.execTime_amount [IsStrictOrderedRing K] (h : catalog.Drafted)
    (hmeasured : workflow.Measured) (hjob : job ∈ workflow.jobs) {node : Node (Exact K)}
    (hnode : node ∈ catalog.nodes) {level : PowerLevel (Exact K)} (hlevel : level ∈ node.levels) :
    (level.execTime job.length).IsAmount := by
  obtain ⟨x, hlength, hx⟩ := isAmount_iff.1 (hmeasured job hjob).1
  have hfault := h.level hnode hlevel
  refine ⟨level.duration x, ?_, PowerLevel.duration_nonneg hfault hx⟩
  rw [hlength, PowerLevel.execTime_eq hfault]

/-- The top speeds of the nodes are above zero. -/
theorem Catalog.Drafted.topSpeed_pos (h : catalog.Drafted) :
    ∀ speed ∈ catalog.nodes.map fun node => node.fastest.speed, ∃ y, speed = finite y ∧ 0 < y := by
  intro speed hspeed
  obtain ⟨node, hnode, rfl⟩ := List.mem_map.1 hspeed
  exact h.speed_pos hnode List.mem_cons_self

/-- The reference speed of a catalog is above zero. -/
theorem Catalog.Drafted.referenceSpeed_pos [IsStrictOrderedRing K] (h : catalog.Drafted)
    (speed : SpeedReference) : ∃ y, catalog.referenceSpeed speed = finite y ∧ 0 < y := by
  have hne : (catalog.nodes.map fun node => node.fastest.speed) ≠ [] := by
    simpa using catalog.nonempty
  cases speed with
  | mean => exact exists_mean_pos h.topSpeed_pos hne
  | fastest => exact exists_maxFrom_pos h.topSpeed_pos hne

/-- Between two nodes data takes an amount of time on average. -/
theorem Catalog.Drafted.meanTransfer_amount [IsStrictOrderedRing K] (h : catalog.Drafted)
    {data : Exact K} (hdata : data.IsAmount) (averaging : TransferAveraging) :
    (catalog.meanTransfer averaging data).IsAmount := by
  obtain ⟨x, rfl, hx⟩ := hdata
  obtain ⟨rate, hnonneg, hrate⟩ := h.exists_pairRate
  exact ⟨_, (hrate x).2 averaging, by positivity⟩

namespace Estimates

variable [IsStrictOrderedRing K] {averaging : TransferAveraging} {speed : SpeedReference}

/-- The weight of a job is an amount. -/
theorem weight_amount (hcatalog : catalog.Drafted) (hworkflow : workflow.Measured)
    (hjob : job ∈ workflow.jobs) :
    ((ofWorkflow workflow catalog averaging speed).weight job).IsAmount := by
  obtain ⟨x, hlength, hx⟩ := isAmount_iff.1 (hworkflow job hjob).1
  obtain ⟨y, hspeed, hpos⟩ := hcatalog.referenceSpeed_pos speed
  have hmean : ∀ mean ∈ (ofWorkflow workflow catalog averaging speed).meanStaging,
      mean.IsAmount := by
    intro mean hmean
    obtain ⟨times, htimes, rfl⟩ := List.mem_map.1 hmean
    obtain ⟨reader, hreader, rfl⟩ := List.mem_map.1 htimes
    refine IsAmount.mean (fun time htime => ?_) (by simpa using catalog.nonempty)
    obtain ⟨node, -, rfl⟩ := List.mem_map.1 htime
    exact hcatalog.stagingTime_amount hworkflow hreader node
  refine IsAmount.add ?_ (getD_of_forall hmean IsAmount.zero job.id)
  show (job.length / catalog.referenceSpeed speed).IsAmount
  rw [hlength, hspeed, div_finite hpos.ne']
  exact ⟨x / y, rfl, div_nonneg hx hpos.le⟩

/-- The mean transfer times to a job from its parents are finite. -/
theorem arrivals_finite (hcatalog : catalog.Drafted) (hworkflow : workflow.Measured) :
    ∀ arrival ∈ (ofWorkflow workflow catalog averaging speed).arrivals job,
      arrival.2.IsFinite := by
  have hrows : ∀ row ∈ (ofWorkflow workflow catalog averaging speed).transfers,
      ∀ transfer ∈ row, transfer.IsFinite := by
    intro row hrow transfer htransfer
    obtain ⟨reader, hreader, rfl⟩ := List.mem_map.1 hrow
    obtain ⟨parent, -, rfl⟩ := List.mem_map.1 htransfer
    split
    · exact (hcatalog.meanTransfer_amount (hworkflow.dataFrom_amount hreader) averaging).isFinite
    · exact ⟨0, zero_eq⟩
  intro arrival harrival
  exact getD_of_forall hrows (by simp) job.id arrival.2 (List.of_mem_zip harrival).2

/-- The earliest finish of a job is finite, if all values before it are. -/
theorem earliestFinish_finite (hcatalog : catalog.Drafted) (hworkflow : workflow.Measured)
    (hjob : job ∈ workflow.jobs) {values : List (Option (Exact K))} {finish : Exact K}
    (hvalues : ∀ (other : JobId) (v : Exact K), values[other]? = some (some v) → v.IsFinite)
    (h : (ofWorkflow workflow catalog averaging speed).earliestFinish workflow values job =
      .ok finish) : finish.IsFinite := by
  obtain ⟨start, hstart, hfinish⟩ := exists_of_bind_eq_ok h
  obtain rfl := Except.ok.inj hfinish
  refine IsFinite.add ?_ (weight_amount hcatalog hworkflow hjob).isFinite
  refine foldlM_preserves (I := IsFinite) ⟨0, zero_eq⟩ ?_ hstart
  intro start arrival harrival next hstart hnext
  obtain ⟨parent, hparent, hlast⟩ := exists_of_bind_eq_ok hnext
  obtain rfl := Except.ok.inj hlast
  exact hstart.max ((hvalues _ parent (getElem?_of_valueOf_eq_ok hparent)).add
    (arrivals_finite hcatalog hworkflow arrival harrival))

end Estimates

/-- The length of the critical path is finite. -/
theorem Metrics.criticalPath_finite [IsStrictOrderedRing K] {metrics : Metrics (Exact K)}
    {averaging : TransferAveraging} {speed : SpeedReference} (hcatalog : catalog.Drafted)
    (hworkflow : workflow.Measured)
    (hmetrics : ofWorkflow workflow catalog averaging speed = .ok metrics) :
    metrics.criticalPath.IsFinite := by
  obtain ⟨hestimates, hfinishes, -⟩ := passes_of_ofWorkflow hmetrics
  rw [hestimates] at hfinishes
  have hpass := Estimates.pass_preserves (P := fun _ finish => finish.IsFinite)
    (fun values id job hjob value hvalues hvalue => Estimates.earliestFinish_finite hcatalog
      hworkflow (Workflow.mem_of_job? hjob) hvalues hvalue) hfinishes
  have hall : ∀ finish ∈ metrics.earliestFinishes, finish.IsFinite := fun finish hfinish =>
    (forall₂_exists_left hpass hfinish).elim fun _ h => h.2
  obtain ⟨y, hmax, -⟩ := maxFrom_finite metrics.earliestFinishes hall 0
  exact ⟨y, by rw [criticalPath, zero_eq, hmax]⟩

end WattPlan
