import WattPlan.Proofs.Exact
import WattPlan.Proofs.Workflow.Cycles

/-!
# The job that a fault names

The jobs that a build leaves are those on a cycle and those below one (`mem_stuck_iff`). The fault
names the first of them by number (`build_fault`), which need not be on a cycle itself: a job that
merely depends on one may come before it.
-/

namespace WattPlan

/-- The jobs on a cycle or below one. -/
def belowCycles (r : JobId → JobId → Prop) : Set JobId :=
  {job | ∃ looped, Relation.TransGen r looped looped ∧ Relation.ReflTransGen r looped job}

/-- A job on a cycle or below one has a parent that is so too. -/
theorem exists_parent_mem_belowCycles {r : JobId → JobId → Prop} {job : JobId}
    (h : job ∈ belowCycles r) : ∃ parent ∈ belowCycles r, r parent job := by
  obtain ⟨looped, hcycle, hbelow⟩ := h
  rcases hbelow.cases_tail with rfl | ⟨parent, hparent, hlast⟩
  · obtain ⟨parent, hparent, hlast⟩ := Relation.TransGen.tail'_iff.1 hcycle
    exact ⟨parent, ⟨job, hcycle, hparent⟩, hlast⟩
  · exact ⟨parent, ⟨looped, hcycle, hparent⟩, hlast⟩

/-- Of finitely many jobs each of which comes after one of them, all are on a cycle or below one. -/
theorem mem_belowCycles {r : JobId → JobId → Prop} {jobs : List JobId}
    (h : ∀ job ∈ jobs, ∃ parent ∈ jobs, r parent job) {job : JobId} (hjob : job ∈ jobs) :
    job ∈ belowCycles r := by
  classical
  -- Those of the jobs that lead to this one go up among themselves.
  have hup : ∀ other ∈ jobs.filter fun other => Relation.ReflTransGen r other job,
      ∃ parent ∈ jobs.filter fun other => Relation.ReflTransGen r other job, r parent other := by
    intro other hother
    simp only [List.mem_filter, decide_eq_true_eq] at hother ⊢
    obtain ⟨parent, hparent, hlast⟩ := h other hother.1
    exact ⟨parent, ⟨hparent, hother.2.head hlast⟩, hlast⟩
  have hself : job ∈ jobs.filter fun other => Relation.ReflTransGen r other job := by
    simpa using ⟨hjob, Relation.ReflTransGen.refl⟩
  obtain ⟨looped, hlooped, hcycle⟩ := exists_transGen_self (List.ne_nil_of_mem hself) hup
  exact ⟨looped, hcycle, by simpa using (List.mem_filter.1 hlooped).2⟩

/-- The first job on a cycle or below one is on a cycle just when it comes before all those that are
only below one. -/
theorem transGen_self_iff_of_isLeast {r : JobId → JobId → Prop} {first : JobId}
    (h : IsLeast (belowCycles r) first) : Relation.TransGen r first first ↔
      ∀ other ∈ belowCycles r, ¬ Relation.TransGen r other other → first < other := by
  constructor
  · intro hcycle other hother hoff
    refine Nat.lt_of_le_of_ne (h.2 hother) fun heq => hoff ?_
    rwa [← heq]
  · intro hall
    by_contra hoff
    exact Nat.lt_irrefl _ (hall first h.1 hoff)

namespace WorkflowDraft

variable {α : Type} {draft : WorkflowDraft α}

/-- The jobs that the generations of a draft leave are those on a cycle or below one. -/
theorem mem_stuck_iff {layers : List (List JobId)} {stuck : List JobId}
    (h : Generates draft.parentsOf [] draft.jobIds layers stuck) {job : JobId} :
    job ∈ stuck ↔ job ∈ belowCycles draft.DependsOn := by
  constructor
  · exact fun hjob => mem_belowCycles (exists_stuck_dependsOn h) hjob
  · intro hbelow
    obtain ⟨-, -, hjob, -⟩ := exists_parent_mem_belowCycles hbelow
    refine h.mem_stuck (fun other hother => ⟨List.not_mem_nil, ?_⟩) hbelow hjob
    obtain ⟨parent, hparent, -, hmem⟩ := exists_parent_mem_belowCycles hother
    exact ⟨parent, hmem, hparent⟩

/-- The job that a fault names is the first one on a cycle or below one. -/
theorem isLeast_of_build_eq_error {fault : ModelFault α} (h : draft.build = .error fault) :
    ∃ first entry, draft.jobs[first]? = some entry ∧
      fault = .cyclicWorkflow draft.name entry.name ∧
      IsLeast (belowCycles draft.DependsOn) first := by
  obtain ⟨layers, first, rest, hgenerates, rfl⟩ := build_eq_error h
  have hsub := hgenerates.stuck_sublist
  have hlt : first < draft.jobs.length := List.mem_range.1 (hsub.subset List.mem_cons_self)
  refine ⟨first, draft.jobs[first], List.getElem?_eq_getElem hlt, by simp [hlt], ?_, ?_⟩
  · exact (mem_stuck_iff hgenerates).1 List.mem_cons_self
  · intro other hother
    -- The jobs that are left stand by number.
    have hsorted := List.pairwise_lt_range.sublist hsub
    rcases List.mem_cons.1 ((mem_stuck_iff hgenerates).2 hother) with rfl | hrest
    · exact Nat.le_refl _
    · exact Nat.le_of_lt ((List.pairwise_cons.1 hsorted).1 other hrest)

/-- What building a draft refuses that steps draw up, some of which may be refused themselves: it
fails just when an accepted dependency is part of a cycle, and then it names the first job that is
on a cycle or below one. That job is on a cycle just when it comes before all the jobs that are only
below one. -/
theorem build_fault [Scalar α] (id : WorkflowId) (name : String) (submittedAt : α)
    (goal : Option α) {steps : List (Step α)}
    {outcomes : List (Except (ModelFault α) (Option JobId))}
    (h : (WorkflowDraft.empty id name submittedAt goal).perform steps = (draft, outcomes)) :
    let leads := Leads (acceptedEdges steps outcomes)
    ((∃ fault, draft.build = .error fault) ↔ ∃ job, Relation.TransGen leads job job) ∧
    ∀ fault, draft.build = .error fault → ∃ first entry, draft.jobs[first]? = some entry ∧
      fault = .cyclicWorkflow name entry.name ∧ IsLeast (belowCycles leads) first ∧
      (Relation.TransGen leads first first ↔
        ∀ other ∈ belowCycles leads, ¬ Relation.TransGen leads other other → first < other) := by
  intro leads
  have hdraft := eq_of_perform h
  have hedges : draft.edges = acceptedEdges steps outcomes := congrArg WorkflowDraft.edges hdraft
  have hname : draft.name = name := congrArg WorkflowDraft.name hdraft
  have hdepends : draft.DependsOn = leads := by
    rw [(Drawn.of_perform h).dependsOn_eq, hedges]
  constructor
  · have hiff : (∃ workflow, draft.build = .ok workflow) ↔ _ := build_iff_acyclic
    rw [hdepends] at hiff
    rw [← not_iff_not, not_exists (p := fun job => Relation.TransGen leads job job), ← hiff]
    cases draft.build <;> simp
  · intro fault hfault
    obtain ⟨first, entry, hentry, heq, hleast⟩ := isLeast_of_build_eq_error hfault
    rw [hdepends] at hleast
    exact ⟨first, entry, hentry, hname ▸ heq, hleast, transGen_self_iff_of_isLeast hleast⟩

end WorkflowDraft

/-!
## A job after a loop

Two jobs, the second of which depends on itself, and the first on the second.
-/

namespace AfterLoop

open Exact Exact.WithoutExponentials WorkflowDraft

def steps : List (Step (Exact ℚ)) :=
  [.job "a" (finite 1), .job "b" (finite 1), .dependency 1 1, .dependency 1 0]

def drawn : WorkflowDraft (Exact ℚ) × List (Except (ModelFault (Exact ℚ)) (Option JobId)) :=
  (WorkflowDraft.empty 1 "loop" (finite 0) none).perform steps

/-- The dependencies of the two jobs. -/
def edges : List (JobId × JobId) :=
  [(1, 1), (1, 0)]

theorem acceptedEdges_drawn : acceptedEdges steps drawn.2 = edges := by
  decide +kernel

theorem jobs_drawn : drawn.1.jobs = [⟨"a", finite 1, [], []⟩, ⟨"b", finite 1, [], []⟩] := by
  decide +kernel

theorem build_drawn : drawn.1.build = .error (.cyclicWorkflow "loop" "a") := by
  with_unfolding_all rfl

/-- The fault says that the cycle leads through the first job, which nothing depends on. -/
theorem names_job_off_cycle : acceptedEdges steps drawn.2 = edges ∧
    drawn.1.build = .error (.cyclicWorkflow "loop" "a") ∧
    ∀ job entry, drawn.1.jobs[job]? = some entry → entry.name = "a" →
      ¬ Relation.TransGen (Leads edges) job job := by
  refine ⟨acceptedEdges_drawn, build_drawn, fun job entry hentry hname hcycle => ?_⟩
  obtain ⟨next, hfirst, -⟩ := Relation.TransGen.head'_iff.1 hcycle
  obtain rfl : job = 1 := by
    simp only [Leads, edges, List.mem_cons, Prod.mk.injEq, List.not_mem_nil, or_false] at hfirst
    rcases hfirst with ⟨hjob, -⟩ | ⟨hjob, -⟩ <;> exact hjob
  rw [jobs_drawn] at hentry
  cases hentry
  exact absurd hname (by decide)

/-- The first job is the first one on a cycle or below one. -/
theorem fault_of_loop :
    (WorkflowDraft.empty 1 "loop" (finite 0) none).perform steps = (drawn.1, drawn.2) ∧
    (∃ job, Relation.TransGen (Leads edges) job job) ∧
    drawn.1.build = .error (.cyclicWorkflow "loop" "a") ∧
    IsLeast (belowCycles (Leads edges)) 0 := by
  have hfault := build_fault 1 "loop" (finite 0) none
    (show (WorkflowDraft.empty 1 "loop" _ none).perform steps = (drawn.1, drawn.2) from rfl)
  rw [acceptedEdges_drawn] at hfault
  obtain ⟨hiff, hnamed⟩ := hfault
  obtain ⟨first, entry, hentry, heq, hleast, -⟩ := hnamed _ build_drawn
  have hname : "a" = entry.name := (ModelFault.cyclicWorkflow.inj heq).2
  have hfirst : first = 0 := by
    rw [jobs_drawn] at hentry
    match first with
    | 0 => rfl
    | 1 =>
        cases hentry
        exact absurd hname (by decide)
  rw [hfirst] at hleast
  exact ⟨rfl, hiff.1 ⟨_, build_drawn⟩, build_drawn, hleast⟩

end AfterLoop

end WattPlan
