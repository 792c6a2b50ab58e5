import Mathlib.Data.List.Chain
import Mathlib.Order.Bounds.Defs
import WattPlan.Proofs.Workflow.Draft

/-!
# Depths by rank

Ranks of the jobs of a draft tell their depths, if every parent of a job has a lower rank and one of
them the rank right below: the generations are then the jobs of each rank (`Ranked.findIdx_eq`), so
that the draft has no cycle (`build_of_ranked`). Conversely the generations of a draft without a
cycle are such ranks (`ranked_of_build`). A rank is the length of the longest path that leads
to a job (`Ranked.isGreatest_pathLengths`).
-/

namespace WattPlan

variable {parents : JobId → List JobId} {jobs settled waiting stuck : List JobId}
  {layers : List (List JobId)} {rank : JobId → Nat}

/-- The lengths of the paths that lead to a job along dependencies, in dependencies. -/
def pathLengths (r : JobId → JobId → Prop) (job : JobId) : Set Nat :=
  {count | ∃ path : List JobId, (path ++ [job]).IsChain r ∧ path.length = count}

section Paths

variable {r : JobId → JobId → Prop} {job : JobId} {count : Nat}

/-- The path of a job alone has no dependency. -/
theorem zero_mem_pathLengths : 0 ∈ pathLengths r job :=
  ⟨[], by simp, rfl⟩

/-- A longer path comes through a parent. -/
theorem succ_mem_pathLengths :
    count + 1 ∈ pathLengths r job ↔ ∃ parent, r parent job ∧ count ∈ pathLengths r parent := by
  constructor
  · rintro ⟨path, hchain, hlength⟩
    rcases List.eq_nil_or_concat' path with rfl | ⟨above, parent, rfl⟩
    · cases hlength
    · obtain ⟨habove, -, hlast⟩ := List.isChain_append.1 hchain
      exact ⟨parent, by simpa using hlast, above, habove, by simpa using hlength⟩
  · rintro ⟨parent, hparent, above, hchain, rfl⟩
    have hlonger := List.isChain_append.2 ⟨hchain, List.isChain_singleton job, by simpa⟩
    exact ⟨above ++ [parent], hlonger, by simp⟩

end Paths

/-- Ranks of jobs that grow along every dependency, by one step along some dependency of each job
that is not of rank 0. -/
structure Ranked (parents : JobId → List JobId) (jobs : List JobId) (rank : JobId → Nat) :
    Prop where
  lt : ∀ job ∈ jobs, ∀ parent ∈ parents job, parent ∈ jobs ∧ rank parent < rank job
  succ : ∀ job ∈ jobs, 0 < rank job → ∃ parent ∈ parents job, rank parent + 1 = rank job

namespace Ranked

/-- There are jobs of all ranks below that of a job. -/
theorem exists_rank_eq (h : Ranked parents jobs rank) {job : JobId} (hjob : job ∈ jobs)
    {level : Nat} (hlevel : level ≤ rank job) : ∃ other ∈ jobs, rank other = level := by
  induction hrank : rank job generalizing job with
  | zero => exact ⟨job, hjob, by omega⟩
  | succ n ih =>
      by_cases heq : level = rank job
      · exact ⟨job, hjob, heq.symm⟩
      · obtain ⟨parent, hparent, hsucc⟩ := h.succ job hjob (by omega)
        exact ih (h.lt job hjob parent hparent).1 (by omega) (by omega)

/-- When all lower ranks are settled and the others wait, the jobs of the lowest of these are
ready. -/
theorem mem_readyJobs_iff (h : Ranked parents jobs rank) {level : Nat}
    (hsettled : ∀ job ∈ jobs, job ∈ settled ↔ rank job < level)
    (hwaiting : ∀ job, job ∈ waiting ↔ job ∈ jobs ∧ level ≤ rank job) {job : JobId} :
    job ∈ readyJobs parents settled waiting ↔ job ∈ jobs ∧ rank job = level := by
  rw [mem_readyJobs, hwaiting]
  constructor
  · rintro ⟨⟨hjob, hlevel⟩, hall⟩
    refine ⟨hjob, ?_⟩
    rcases Nat.eq_or_lt_of_le hlevel with heq | hlt
    · exact heq.symm
    · obtain ⟨parent, hparent, hsucc⟩ := h.succ job hjob (by omega)
      have hlow := (hsettled parent (h.lt job hjob parent hparent).1).1 (hall parent hparent)
      omega
  · rintro ⟨hjob, heq⟩
    refine ⟨⟨hjob, Nat.le_of_eq heq.symm⟩, fun parent hparent => ?_⟩
    obtain ⟨hmem, hlt⟩ := h.lt job hjob parent hparent
    exact (hsettled parent hmem).2 (by omega)

/-- Of ranked jobs none is stuck, and the generation of a job is its rank, counted from the rank of
the first one. -/
theorem findIdx_eq (h : Ranked parents jobs rank)
    (hgenerates : Generates parents settled waiting layers stuck) {level : Nat}
    (hsettled : ∀ job ∈ jobs, job ∈ settled ↔ rank job < level)
    (hwaiting : ∀ job, job ∈ waiting ↔ job ∈ jobs ∧ level ≤ rank job) :
    stuck = [] ∧
      ∀ job ∈ waiting, level + (layers.findIdx fun layer => layer.contains job) = rank job := by
  induction hgenerates generalizing level with
  | done settled waiting hnone =>
      -- Where a job waits, one of the lowest rank does, and that one is ready.
      have hempty : ∀ job, job ∉ waiting := by
        intro job hjob
        obtain ⟨hmem, hle⟩ := (hwaiting job).1 hjob
        obtain ⟨other, hother, heq⟩ := h.exists_rank_eq hmem hle
        have hready := (h.mem_readyJobs_iff hsettled hwaiting).2 ⟨hother, heq⟩
        rw [hnone] at hready
        cases hready
      exact ⟨List.eq_nil_iff_forall_not_mem.2 hempty, fun job hjob => absurd hjob (hempty job)⟩
  | next settled waiting later stuck _ _ ih =>
      -- The jobs of this rank are settled now, and those that still wait have higher ranks.
      have hready : ∀ job, job ∈ readyJobs parents settled waiting ↔ job ∈ jobs ∧ rank job = level :=
        fun job => h.mem_readyJobs_iff hsettled hwaiting
      have hsettled' : ∀ job ∈ jobs, job ∈ settled ++ readyJobs parents settled waiting ↔
          rank job < level + 1 := by
        intro job hjob
        rw [List.mem_append, hsettled job hjob, hready job]
        have hlevel := Nat.lt_or_eq_of_le (m := level) (n := rank job)
        constructor
        · rintro (hlt | ⟨-, heq⟩) <;> omega
        · intro hlt
          by_cases heq : rank job = level
          · exact .inr ⟨hjob, heq⟩
          · exact .inl (by omega)
      have hwaiting' : ∀ job, job ∈ blockedJobs parents settled waiting ↔
          job ∈ jobs ∧ level + 1 ≤ rank job := by
        intro job
        constructor
        · intro hblocked
          obtain ⟨hwait, parent, hparent, hunsettled⟩ := mem_blockedJobs.1 hblocked
          obtain ⟨hjob, hle⟩ := (hwaiting job).1 hwait
          have hne : rank job ≠ level := fun heq =>
            hunsettled ((mem_readyJobs.1 ((hready job).2 ⟨hjob, heq⟩)).2 parent hparent)
          exact ⟨hjob, by omega⟩
        · rintro ⟨hjob, hlt⟩
          refine mem_blockedJobs_of_not_mem ((hwaiting job).2 ⟨hjob, by omega⟩) fun hnow => ?_
          have heq := ((hready job).1 hnow).2
          omega
      obtain ⟨hstuck, hrank⟩ := ih hsettled' hwaiting'
      refine ⟨hstuck, fun job hjob => ?_⟩
      obtain ⟨hjobs, hle⟩ := (hwaiting job).1 hjob
      by_cases heq : rank job = level
      · rw [findIdx_cons_of_mem ((hready job).2 ⟨hjobs, heq⟩), heq, Nat.add_zero]
      · have hlast := hrank job ((hwaiting' job).2 ⟨hjobs, by omega⟩)
        rw [findIdx_cons_of_not_mem fun hnow => heq ((hready job).1 hnow).2]
        omega

/-- The rank of a job is the length of the longest path that leads to it. -/
theorem isGreatest_pathLengths (h : Ranked parents jobs rank) {job : JobId} (hjob : job ∈ jobs) :
    IsGreatest (pathLengths (fun parent child => parent ∈ parents child) job) (rank job) := by
  constructor
  · -- From a job of a rank above 0, the path goes up to a parent of the rank right below.
    induction hrank : rank job generalizing job with
    | zero => exact zero_mem_pathLengths
    | succ n ih =>
        obtain ⟨parent, hparent, hsucc⟩ := h.succ job hjob (by omega)
        exact succ_mem_pathLengths.2
          ⟨parent, hparent, ih (h.lt job hjob parent hparent).1 (by omega)⟩
  · intro count hcount
    induction count generalizing job with
    | zero => exact Nat.zero_le _
    | succ count ih =>
        obtain ⟨parent, hparent, habove⟩ := succ_mem_pathLengths.1 hcount
        obtain ⟨hmem, hlt⟩ := h.lt job hjob parent hparent
        exact Nat.lt_of_le_of_lt (ih hmem habove) hlt

end Ranked

namespace WorkflowDraft

variable {α : Type}

/-- A draft whose jobs are ranked has no cycle, and the depth of a job is its rank. -/
theorem build_of_ranked {draft : WorkflowDraft α}
    (h : Ranked draft.parentsOf draft.jobIds rank) :
    ∃ workflow, draft.build = .ok workflow ∧
      ∀ id job, workflow.job? id = some job → job.depth = rank id := by
  cases hgenerations : generations draft.parentsOf [] draft.jobIds with
  | mk layers stuck =>
      have hgenerates := generates_iff.2 hgenerations
      have hfirst : ∀ job ∈ draft.jobIds, job ∈ ([] : List JobId) ↔ rank job < 0 := by simp
      obtain ⟨rfl, hrank⟩ := h.findIdx_eq hgenerates hfirst (by simp)
      obtain ⟨workflow, hworkflow⟩ := build_of_generates hgenerates
      refine ⟨workflow, hworkflow, fun id job hjob => ?_⟩
      obtain ⟨others, hothers, -, hjobs⟩ := build_eq_ok hworkflow
      rw [generates_iff, hgenerations] at hothers
      cases hothers
      obtain ⟨entry, hentry, rfl⟩ := (hjobs id job).1 hjob
      have hid : id ∈ draft.jobIds := by
        simpa [jobIds] using (List.getElem?_eq_some_iff.1 hentry).1
      simpa [finishJob] using hrank id hid

/-- The depths of the jobs of a workflow that is built are ranks. -/
theorem ranked_of_build {draft : WorkflowDraft α} {workflow : Workflow α}
    (h : draft.build = .ok workflow) : Ranked draft.parentsOf draft.jobIds workflow.depthOf := by
  obtain ⟨layers, hlayers, -, hjobs⟩ := build_eq_ok h
  have hdepth : ∀ id ∈ draft.jobIds,
      workflow.depthOf id = layers.findIdx fun layer => layer.contains id := by
    intro id hid
    have hget := List.getElem?_eq_getElem (List.mem_range.1 hid)
    have hjob := (hjobs id _).2 ⟨_, hget, rfl⟩
    simp [Workflow.depthOf, hjob, finishJob]
  have hmem : ∀ {id parent}, parent ∈ draft.parentsOf id → parent ∈ draft.jobIds :=
    fun hparent => List.mem_range.2 (mem_parentsOf.1 hparent).1
  constructor
  · intro id hid parent hparent
    refine ⟨hmem hparent, ?_⟩
    rw [hdepth id hid, hdepth parent (hmem hparent)]
    exact (hlayers.findIdx_lt hid List.not_mem_nil hparent).resolve_left List.not_mem_nil
  · intro id hid hpos
    obtain ⟨place, hplace⟩ := Nat.exists_eq_add_one.2 hpos
    rw [hdepth id hid] at hplace
    obtain ⟨parent, hparent, -, heq⟩ :=
      hlayers.exists_parent_findIdx hid List.not_mem_nil hplace
    refine ⟨parent, hparent, ?_⟩
    rw [hdepth id hid, hdepth parent (hmem hparent), heq, hplace]

end WorkflowDraft

end WattPlan
