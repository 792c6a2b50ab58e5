import Mathlib.Algebra.Order.BigOperators.Group.List
import WattPlan.Proofs.Exact
import WattPlan.Proofs.Workflow.Draft

/-!
# What a job reads

A build splits the inputs of a job by name, into those that some parent writes and the stored ones.
Planning matches the names again, parent by parent, to tell how much is sent from where. The two
agree (`Splits`): all that is declared is either stored or counted for a parent, and as often as
there are parents that write it (`Splits.sum_inputsFrom`). So no input is left out, and none is
charged twice unless two parents write its name (`Drawn.inputs_charged`).
-/

namespace WattPlan

open Exact

section Counting

variable {β γ K : Type}

/-- What each of some conditions keeps of a list adds up to the members, each counted as often as
conditions hold of it. -/
theorem sum_map_filter_map [Semiring K] (keeps : γ → β → Bool) (f : β → K) (conditions : List γ)
    (xs : List β) :
    (conditions.map fun c => ((xs.filter (keeps c)).map f).sum).sum =
      (xs.map fun x => (conditions.countP (keeps · x) : K) * f x).sum := by
  induction conditions with
  | nil => simp
  | cons c conditions ih =>
      have hkept : ((xs.filter (keeps c)).map f).sum =
          (xs.map fun x => if keeps c x then f x else 0).sum := by
        simp [List.sum_map_ite]
      rw [List.map_cons, List.sum_cons, ih, hkept, ← List.sum_map_add]
      congr 1
      refine List.map_congr_left fun x _ => ?_
      by_cases h : keeps c x = true
      · simp [h, add_mul, add_comm]
      · simp [h]

/-- A condition that no two members of a list meet is met at most once. -/
theorem countP_le_one {p : β → Bool} {xs : List β}
    (h : xs.Pairwise fun x y => ¬ (p x = true ∧ p y = true)) : xs.countP p ≤ 1 := by
  induction h with
  | nil => simp
  | @cons x xs hx _ ih =>
      by_cases hp : p x = true
      · have hnone : xs.countP p = 0 := List.countP_eq_zero.2 fun y hy hpy => hx y hy ⟨hp, hpy⟩
        rw [List.countP_cons_of_pos hp, hnone]
      · rwa [List.countP_cons_of_neg hp]

end Counting

variable {α : Type}

namespace Job

/-- Does a job write an artifact of a name? -/
def writes (job : Job α) (name : String) : Bool :=
  job.outputs.any fun output => output.name = name

/-- The inputs of a job that are counted as read of another one. -/
def inputsFrom (job writer : Job α) : List (Artifact α) :=
  job.parentInputs.filter fun input => writer.writes input.name

/-- The bytes that a job reads of another one are those of the inputs counted for it. -/
theorem dataFrom_eq_sum [Scalar α] (job writer : Job α) :
    job.dataFrom writer = Scalar.sum ((job.inputsFrom writer).map Artifact.size) :=
  rfl

/-- The declared inputs of a job, in their order, are split by whether one of its parents writes
their name. -/
structure Splits (job : Job α) (parents : List (Job α)) (declared : List (Artifact α)) : Prop where
  parentInputs_eq : job.parentInputs =
    declared.filter fun input => parents.any fun parent => parent.writes input.name
  storedInputs_eq : job.storedInputs =
    declared.filter fun input => !parents.any fun parent => parent.writes input.name

namespace Splits

variable {job : Job α} {parents : List (Job α)} {declared : List (Artifact α)}
  {input : Artifact α}

/-- An input from the parents is counted for at least one of them. -/
theorem exists_mem_inputsFrom (h : job.Splits parents declared) (hinput : input ∈ job.parentInputs) :
    ∃ parent ∈ parents, input ∈ job.inputsFrom parent := by
  have hsome := (List.mem_filter.1 (h.parentInputs_eq ▸ hinput)).2
  obtain ⟨parent, hparent, hwrites⟩ := List.any_eq_true.1 hsome
  exact ⟨parent, hparent, List.mem_filter.2 ⟨hinput, hwrites⟩⟩

/-- No parent writes the name of a stored input. -/
theorem writes_stored (h : job.Splits parents declared) (hinput : input ∈ job.storedInputs) :
    ∀ parent ∈ parents, parent.writes input.name = false := by
  have hnone := (List.mem_filter.1 (h.storedInputs_eq ▸ hinput)).2
  simpa using hnone

/-- A stored input is counted for no parent. -/
theorem not_mem_inputsFrom (h : job.Splits parents declared) (hinput : input ∈ job.storedInputs) :
    ∀ parent ∈ parents, input ∉ job.inputsFrom parent := by
  intro parent hparent hmem
  have hwrites := (List.mem_filter.1 hmem).2
  rw [h.writes_stored hinput parent hparent] at hwrites
  cases hwrites

/-- Whatever is added up over the declared inputs is added up over both parts. -/
theorem sum_map {K : Type} [AddCommMonoid K] (h : job.Splits parents declared)
    (f : Artifact α → K) :
    (declared.map f).sum = (job.storedInputs.map f).sum + (job.parentInputs.map f).sum := by
  have hsum := List.sum_map_filter_add_sum_map_filter_not
    (fun input : Artifact α => (parents.any fun parent => parent.writes input.name) = true) f
    declared
  simp only [decide_not, Bool.decide_coe] at hsum
  rw [h.storedInputs_eq, h.parentInputs_eq, add_comm, hsum]

/-- What is counted for the parents together are the inputs from them, each as often as there are
parents that write it. -/
theorem sum_inputsFrom {K : Type} [Semiring K] (job : Job α) (parents : List (Job α))
    (f : Artifact α → K) :
    (parents.map fun parent => ((job.inputsFrom parent).map f).sum).sum =
      (job.parentInputs.map fun input =>
        (parents.countP fun parent => parent.writes input.name : K) * f input).sum :=
  sum_map_filter_map (fun (parent : Job α) (input : Artifact α) => parent.writes input.name) f
    parents job.parentInputs

end Splits

end Job

/-- The parents of a job. -/
def Workflow.parentJobs (workflow : Workflow α) (job : Job α) : List (Job α) :=
  job.parents.filterMap workflow.job?

namespace Workflow.Arranged

variable {workflow : Workflow α} {job : Job α}

/-- The parents of a job are the jobs whose numbers it has, in their order. -/
theorem map_id_parentJobs (h : workflow.Arranged) (hjob : job ∈ workflow.jobs) :
    (workflow.parentJobs job).map Job.id = job.parents := by
  have hfound : ∀ ids : List JobId, (∀ id ∈ ids, ∃ parent, workflow.job? id = some parent) →
      (ids.filterMap workflow.job?).map Job.id = ids := by
    intro ids hids
    induction ids with
    | nil => rfl
    | cons id ids ih =>
        rw [List.forall_mem_cons] at hids
        obtain ⟨parent, hparent⟩ := hids.1
        rw [List.filterMap_cons_some hparent, List.map_cons, h.id_eq hparent, ih hids.2]
  exact hfound _ fun id hid => (h.parent hjob hid).imp fun _ hparent => hparent.1

/-- A parent of a job is the job of its own number. -/
theorem job?_of_mem_parentJobs (h : workflow.Arranged) {parent : Job α}
    (hparent : parent ∈ workflow.parentJobs job) : workflow.job? parent.id = some parent := by
  obtain ⟨id, -, hid⟩ := List.mem_filterMap.1 hparent
  rwa [h.id_eq hid]

end Workflow.Arranged

namespace WorkflowDraft

variable {draft : WorkflowDraft α} {workflow : Workflow α} {id : JobId} {job : Job α}

/-- A job depends on no other one twice. -/
theorem nodup_parentsOf : (draft.parentsOf id).Nodup :=
  List.nodup_range.filter _

/-- The names that parents write, entry by entry. -/
theorem mem_writtenByParents {name : String} :
    name ∈ draft.writtenByParents id ↔ ∃ parent ∈ draft.parentsOf id, ∃ entry,
      draft.jobs[parent]? = some entry ∧ ∃ output ∈ entry.outputs, output.name = name := by
  simp only [writtenByParents, List.mem_flatMap]
  refine exists_congr fun parent => and_congr_right fun _ => ?_
  cases draft.jobs[parent]? <;> simp

/-- A build splits the inputs that were declared for a job, and leaves it what else was declared. -/
theorem splits_of_build (hbuild : draft.build = .ok workflow)
    (hjob : workflow.job? id = some job) :
    ∃ entry, draft.jobs[id]? = some entry ∧ job.outputs = entry.outputs ∧
      (workflow.parentJobs job).Pairwise (fun first second => first.id ≠ second.id) ∧
      job.Splits (workflow.parentJobs job) entry.inputs := by
  have harranged := arranged_of_build hbuild
  obtain ⟨layers, -, -, hjobs⟩ := build_eq_ok hbuild
  obtain ⟨entry, hentry, rfl⟩ := (hjobs id job).1 hjob
  have hwritten : ∀ name, (draft.writtenByParents id).contains name =
      (workflow.parentJobs (draft.finishJob layers entry id)).any fun parent =>
        parent.writes name := by
    intro name
    rw [Bool.eq_iff_iff, List.contains_iff_mem, mem_writtenByParents, List.any_eq_true]
    simp only [Workflow.parentJobs, List.mem_filterMap, hjobs]
    constructor
    · rintro ⟨parent, hparent, other, hother, output, houtput, rfl⟩
      exact ⟨_, ⟨parent, hparent, other, hother, rfl⟩,
        List.any_eq_true.2 ⟨output, houtput, decide_eq_true rfl⟩⟩
    · rintro ⟨_, ⟨parent, hparent, other, hother, rfl⟩, hwrites⟩
      obtain ⟨output, houtput, hname⟩ := List.any_eq_true.1 hwrites
      exact ⟨parent, hparent, other, hother, output, houtput, of_decide_eq_true hname⟩
  refine ⟨entry, hentry, rfl, ?_, ?_, ?_⟩
  · rw [← List.pairwise_map, harranged.map_id_parentJobs (Workflow.mem_of_job? hjob)]
    exact nodup_parentsOf
  · simp only [← hwritten]
    rfl
  · simp only [← hwritten]
    rfl

end WorkflowDraft

variable {K : Type} [Field K] [LinearOrder K] [FloorRing K] [Exponentials K]

/-- The bytes of an artifact, as a number. -/
def Artifact.bytes (artifact : Artifact (Exact K)) : K :=
  artifact.size.value

/-- The sizes of measured artifacts add up to their bytes. -/
theorem sum_size_eq {artifacts : List (Artifact (Exact K))}
    (h : ∀ artifact ∈ artifacts, artifact.size.IsAmount) :
    Scalar.sum (artifacts.map Artifact.size) = finite (artifacts.map Artifact.bytes).sum := by
  have hsizes : artifacts.map Artifact.size = (artifacts.map Artifact.bytes).map finite := by
    rw [List.map_map]
    exact List.map_congr_left fun artifact hmem => (h artifact hmem).eq_value.1
  rw [hsizes, sum_map_finite]

namespace Job.Splits

variable {job : Job (Exact K)} {parents : List (Job (Exact K))}
  {declared : List (Artifact (Exact K))}

/-- What is stored and what is read of the parents are together at least the declared inputs, and
just these if no two parents write the name of one of them. -/
theorem charged [IsStrictOrderedRing K] (h : job.Splits parents declared)
    (hsizes : ∀ input ∈ declared, input.size.IsAmount) :
    ∃ total charged, Scalar.sum (declared.map Artifact.size) = finite total ∧
      Scalar.sum (job.storedInputs.map Artifact.size) +
        Scalar.sum (parents.map job.dataFrom) = finite charged ∧
      total ≤ charged ∧
      ((∀ input ∈ declared, parents.Pairwise fun first second =>
        ¬ (first.writes input.name = true ∧ second.writes input.name = true)) →
          charged = total) := by
  have hstored : ∀ input ∈ job.storedInputs, input.size.IsAmount := fun input hinput =>
    hsizes input (List.mem_of_mem_filter (h.storedInputs_eq ▸ hinput))
  have hread : ∀ input ∈ job.parentInputs, input ∈ declared := fun input hinput =>
    List.mem_of_mem_filter (h.parentInputs_eq ▸ hinput)
  have hparents : Scalar.sum (parents.map job.dataFrom) =
      finite (job.parentInputs.map fun input =>
        (parents.countP fun parent => parent.writes input.name : K) * input.bytes).sum := by
    rw [← sum_inputsFrom, ← sum_map_finite, List.map_map]
    refine congrArg _ (List.map_congr_left fun parent _ => ?_)
    rw [dataFrom_eq_sum]
    exact sum_size_eq fun input hinput => hsizes input (hread input (List.mem_of_mem_filter hinput))
  have hcount : ∀ input ∈ job.parentInputs,
      1 ≤ parents.countP fun parent => parent.writes input.name := by
    intro input hinput
    obtain ⟨parent, hparent, hmem⟩ := h.exists_mem_inputsFrom hinput
    exact List.countP_pos_iff.2 ⟨parent, hparent, (List.mem_filter.1 hmem).2⟩
  refine ⟨_, _, sum_size_eq hsizes, by rw [sum_size_eq hstored, hparents, add_finite], ?_, ?_⟩
  · rw [h.sum_map]
    refine add_le_add le_rfl (List.sum_le_sum fun input hinput => ?_)
    have hone : (1 : K) ≤ (parents.countP fun parent => parent.writes input.name : K) :=
      Nat.one_le_cast.2 (hcount input hinput)
    exact le_mul_of_one_le_left (hsizes input (hread input hinput)).eq_value.2 hone
  · intro hsingle
    rw [h.sum_map]
    refine congrArg _ (congrArg List.sum (List.map_congr_left fun input hinput => ?_))
    have hone := Nat.le_antisymm (countP_le_one (hsingle input (hread input hinput)))
      (hcount input hinput)
    rw [hone, Nat.cast_one, one_mul]

end Job.Splits

/-- In a workflow that is built, the inputs declared for a job are split in their order into those
whose name some parent writes, each of which is counted for such a parent, and stored ones, none of
which is counted for a parent. What is charged for both is at least all that was declared, and just
that unless two parents write the name of one input. -/
theorem WorkflowDraft.Drawn.inputs_charged [IsStrictOrderedRing K]
    {draft : WorkflowDraft (Exact K)} {workflow : Workflow (Exact K)} (hdrawn : draft.Drawn)
    (hbuild : draft.build = .ok workflow) {id : JobId}
    {job : Job (Exact K)} (hjob : workflow.job? id = some job) :
    ∃ entry, draft.jobs[id]? = some entry ∧
      (workflow.parentJobs job).map Job.id = job.parents ∧
      (∀ parent ∈ workflow.parentJobs job, workflow.job? parent.id = some parent ∧
        ∃ writer, draft.jobs[parent.id]? = some writer ∧ parent.outputs = writer.outputs) ∧
      job.Splits (workflow.parentJobs job) entry.inputs ∧
      (∀ input ∈ job.parentInputs,
        ∃ parent ∈ workflow.parentJobs job, input ∈ job.inputsFrom parent) ∧
      (∀ input ∈ job.storedInputs,
        ∀ parent ∈ workflow.parentJobs job, input ∉ job.inputsFrom parent) ∧
      ∃ total charged, Scalar.sum (entry.inputs.map Artifact.size) = finite total ∧
        Scalar.sum (job.storedInputs.map Artifact.size) +
          Scalar.sum ((workflow.parentJobs job).map job.dataFrom) = finite charged ∧
        total ≤ charged ∧
        ((∀ input ∈ entry.inputs, ∀ first ∈ workflow.parentJobs job,
          ∀ second ∈ workflow.parentJobs job, first.writes input.name = true →
            second.writes input.name = true → first.id = second.id) → charged = total) := by
  have harranged := arranged_of_build hbuild
  obtain ⟨entry, hentry, -, hdistinct, hsplits⟩ := splits_of_build hbuild hjob
  have hsizes : ∀ input ∈ entry.inputs, input.size.IsAmount := fun input hinput =>
    isAmount_iff.1 ((hdrawn.measured entry (List.mem_of_getElem? hentry)).2 input
      (List.mem_append_left _ hinput))
  obtain ⟨total, charged, htotal, hcharged, hle, heq⟩ := hsplits.charged hsizes
  refine ⟨entry, hentry, harranged.map_id_parentJobs (Workflow.mem_of_job? hjob),
    fun parent hparent => ?_, hsplits, fun _ => hsplits.exists_mem_inputsFrom,
    fun _ => hsplits.not_mem_inputsFrom, total, charged, htotal, hcharged, hle, fun hsingle => ?_⟩
  · have hfound := harranged.job?_of_mem_parentJobs hparent
    obtain ⟨writer, hwriter, houtputs, -⟩ := splits_of_build hbuild hfound
    exact ⟨hfound, writer, hwriter, houtputs⟩
  · refine heq fun input hinput => hdistinct.imp_of_mem ?_
    rintro first second hfirst hsecond hne ⟨hwrites, hwrites'⟩
    exact hne (hsingle input hinput first hfirst second hsecond hwrites hwrites')

/-!
## Flour from two parents

The dough reads flour twice, which both the mill and the store write, and water that none of them
writes. What the bread reads has one writer.
-/

namespace Bakery

open Exact.WithoutExponentials

def draft : WorkflowDraft (Exact ℚ) :=
  ((WorkflowDraft.empty 6 "bakery" (finite 0) none).perform
    [.job "mill" (finite 1), .job "store" (finite 1), .job "dough" (finite 2),
      .job "bread" (finite 4), .dependency 0 2, .dependency 1 2, .dependency 2 3,
      .output 0 ⟨"flour", finite 9, none⟩, .output 1 ⟨"yeast", finite 3, none⟩,
      .output 1 ⟨"flour", finite 9, none⟩, .output 2 ⟨"dough", finite 30, none⟩,
      .input 2 ⟨"flour", finite 5, none⟩, .input 2 ⟨"water", finite 7, none⟩,
      .input 2 ⟨"yeast", finite 11, none⟩, .input 2 ⟨"flour", finite 13, none⟩,
      .input 3 ⟨"salt", finite 2, none⟩, .input 3 ⟨"dough", finite 30, none⟩]).1

def dough : Job (Exact ℚ) :=
  ⟨2, "dough", finite 2, 1, [0, 1], [3], [⟨"water", finite 7, none⟩],
    [⟨"flour", finite 5, none⟩, ⟨"yeast", finite 11, none⟩, ⟨"flour", finite 13, none⟩],
    [⟨"dough", finite 30, none⟩], none⟩

def bread : Job (Exact ℚ) :=
  ⟨3, "bread", finite 4, 2, [2], [], [⟨"salt", finite 2, none⟩],
    [⟨"dough", finite 30, none⟩], [], none⟩

def workflow : Workflow (Exact ℚ) :=
  ⟨6, "bakery", finite 0, none, none,
    [⟨0, "mill", finite 1, 0, [], [2], [], [], [⟨"flour", finite 9, none⟩], none⟩,
      ⟨1, "store", finite 1, 0, [], [2], [], [],
        [⟨"yeast", finite 3, none⟩, ⟨"flour", finite 9, none⟩], none⟩,
      dough, bread]⟩

theorem draft_drawn : draft.Drawn :=
  (WorkflowDraft.Drawn.empty 6 "bakery" (finite 0) none).perform _

theorem build_eq : draft.build = .ok workflow := by
  with_unfolding_all rfl

/-- The dough is charged 54 bytes for the 36 declared ones, since its flour counts for both parents.
The bread is charged just its 32. -/
theorem charges : draft.Drawn ∧ draft.build = .ok workflow ∧
    (∃ entry, draft.jobs[2]? = some entry ∧
      dough.Splits (workflow.parentJobs dough) entry.inputs ∧
      ∃ total charged : ℚ, Scalar.sum (entry.inputs.map Artifact.size) = finite total ∧
        Scalar.sum (dough.storedInputs.map Artifact.size) +
          Scalar.sum ((workflow.parentJobs dough).map dough.dataFrom) = finite charged ∧
        total ≤ charged ∧ total = 36 ∧ charged = 54) ∧
    ∃ entry, draft.jobs[3]? = some entry ∧
      ∃ total charged : ℚ, Scalar.sum (entry.inputs.map Artifact.size) = finite total ∧
        Scalar.sum (bread.storedInputs.map Artifact.size) +
          Scalar.sum ((workflow.parentJobs bread).map bread.dataFrom) = finite charged ∧
        charged = total ∧ total = 32 := by
  refine ⟨draft_drawn, build_eq, ?_, ?_⟩
  · obtain ⟨entry, hentry, -, -, hsplits, -, -, total, charged, htotal, hcharged, hle, -⟩ :=
      draft_drawn.inputs_charged build_eq (show workflow.job? 2 = some dough from rfl)
    have hsums : (draft.jobs[2]?.map fun entry => Scalar.sum (entry.inputs.map Artifact.size)) =
        some (finite 36) ∧ Scalar.sum (dough.storedInputs.map Artifact.size) +
          Scalar.sum ((workflow.parentJobs dough).map dough.dataFrom) = finite 54 := by
      decide +kernel
    rw [hentry, Option.map_some, htotal, hcharged, Option.some.injEq] at hsums
    exact ⟨entry, hentry, hsplits, total, charged, htotal, hcharged, hle,
      Exact.finite.inj hsums.1, Exact.finite.inj hsums.2⟩
  · obtain ⟨entry, hentry, -, -, -, -, -, total, charged, htotal, hcharged, -, heq⟩ :=
      draft_drawn.inputs_charged build_eq (show workflow.job? 3 = some bread from rfl)
    have hsum : (draft.jobs[3]?.map fun entry => Scalar.sum (entry.inputs.map Artifact.size)) =
        some (finite 32) := by
      decide +kernel
    rw [hentry, Option.map_some, htotal, Option.some.injEq] at hsum
    have hparents : workflow.parentJobs bread = [dough] := rfl
    refine ⟨entry, hentry, total, charged, htotal, hcharged, heq ?_, Exact.finite.inj hsum⟩
    intro input _ first hfirst second hsecond _ _
    rw [hparents, List.mem_singleton] at hfirst hsecond
    rw [hfirst, hsecond]

end Bakery

end WattPlan
