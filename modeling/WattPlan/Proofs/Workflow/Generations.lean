import Mathlib.Data.List.Basic
import WattPlan.Workflow.Draft

/-!
# Generations of jobs

`Generates` tells how the jobs that wait are settled, and `generations` computes that
(`generates_iff`). The generation of a job is later than those of its parents
(`Generates.findIdx_lt`), and by one than that of some parent (`Generates.exists_parent_findIdx`).
Jobs that are stuck are stuck behind a parent (`Generates.exists_stuck_parent`), and so is every
group of jobs in which each waits for another one (`Generates.mem_stuck`).
-/

namespace WattPlan

/-- How waiting jobs are settled: the ones that are ready form a generation, as long as there are
some, and then the blocked ones wait for the next. Where none is ready, all that wait are stuck. -/
inductive Generates (parents : JobId → List JobId) :
    List JobId → List JobId → List (List JobId) → List JobId → Prop where
  | done (settled waiting) :
      readyJobs parents settled waiting = [] → Generates parents settled waiting [] waiting
  | next (settled waiting later stuck) :
      readyJobs parents settled waiting ≠ [] →
      Generates parents (settled ++ readyJobs parents settled waiting)
        (blockedJobs parents settled waiting) later stuck →
      Generates parents settled waiting (readyJobs parents settled waiting :: later) stuck

section Membership

variable {parents : JobId → List JobId} {settled waiting : List JobId} {job : JobId}

/-- The ready jobs are the waiting ones whose parents are all settled. -/
theorem mem_readyJobs : job ∈ readyJobs parents settled waiting ↔
    job ∈ waiting ∧ ∀ parent ∈ parents job, parent ∈ settled := by
  simp [readyJobs, isReady]

/-- The blocked jobs are the waiting ones with a parent that is not settled. -/
theorem mem_blockedJobs : job ∈ blockedJobs parents settled waiting ↔
    job ∈ waiting ∧ ∃ parent ∈ parents job, parent ∉ settled := by
  simp [blockedJobs, isReady]

/-- A waiting job that is not ready is blocked. -/
theorem mem_blockedJobs_of_not_mem (hjob : job ∈ waiting)
    (hnot : job ∉ readyJobs parents settled waiting) :
    job ∈ blockedJobs parents settled waiting := by
  rw [mem_readyJobs] at hnot
  push Not at hnot
  exact mem_blockedJobs.2 ⟨hjob, hnot hjob⟩

/-- Only the parents of the waiting jobs tell which of them are ready and which are blocked. -/
theorem readyJobs_congr {others : JobId → List JobId}
    (h : ∀ job ∈ waiting, others job = parents job) :
    readyJobs others settled waiting = readyJobs parents settled waiting ∧
      blockedJobs others settled waiting = blockedJobs parents settled waiting := by
  have hsame : ∀ job ∈ waiting, isReady others settled job = isReady parents settled job :=
    fun job hjob => by rw [isReady, isReady, h job hjob]
  exact ⟨List.filter_congr hsame, List.filter_congr fun job hjob => by rw [hsame job hjob]⟩

/-- A job of the first list is found there. -/
theorem findIdx_cons_of_mem {layer : List JobId} (h : job ∈ layer) (layers : List (List JobId)) :
    ((layer :: layers).findIdx fun layer => layer.contains job) = 0 := by
  rw [List.findIdx_cons, List.contains_iff_mem.2 h, cond_true]

/-- A job that is not in the first list is found one place further on than in the others. -/
theorem findIdx_cons_of_not_mem {layer : List JobId} (h : job ∉ layer)
    (layers : List (List JobId)) :
    ((layer :: layers).findIdx fun layer => layer.contains job) =
      (layers.findIdx fun layer => layer.contains job) + 1 := by
  have hnot : layer.contains job = false := by simpa using h
  rw [List.findIdx_cons, hnot, cond_false]

end Membership

/-- `Generates` holds of just the generations that are computed. -/
theorem generates_iff {parents : JobId → List JobId} {settled waiting stuck : List JobId}
    {layers : List (List JobId)} : Generates parents settled waiting layers stuck ↔
      generations parents settled waiting = (layers, stuck) := by
  constructor
  · intro h
    induction h with
    | done settled waiting hnone => rw [generations, dif_neg (by simp [hnone])]
    | next settled waiting later stuck hsome _ ih =>
        rw [generations, dif_pos (by simpa using hsome)]
        simp only [ih]
  · intro h
    induction settled, waiting using generations.induct parents generalizing layers stuck with
    | case1 settled waiting hsome ready later last hrest =>
        rename_i ih
        rw [generations, dif_pos hsome] at h
        have hrest' : generations parents (settled ++ readyJobs parents settled waiting)
            (blockedJobs parents settled waiting) = (later, last) := hrest
        simp only [hrest', Prod.mk.injEq] at h
        obtain ⟨rfl, rfl⟩ := h
        exact .next _ _ _ _ (by simpa using hsome) (ih hrest)
    | case2 settled waiting hnone =>
        rw [generations, dif_neg hnone] at h
        cases h
        exact .done _ _ (by simpa using hnone)

namespace Generates

variable {parents : JobId → List JobId} {settled waiting stuck : List JobId}
  {layers : List (List JobId)} {job parent : JobId}

/-- Only the parents of the waiting jobs matter. -/
theorem congr (h : Generates parents settled waiting layers stuck) {others : JobId → List JobId}
    (hsame : ∀ job ∈ waiting, others job = parents job) :
    Generates others settled waiting layers stuck := by
  induction h with
  | done settled waiting hnone => exact .done _ _ ((readyJobs_congr hsame).1.trans hnone)
  | next settled waiting later stuck hsome _ ih =>
      obtain ⟨hready, hblocked⟩ := @readyJobs_congr parents settled waiting others hsame
      have hrest := ih fun job hjob => hsame job (mem_blockedJobs.1 hjob).1
      rw [← hready] at hsome hrest ⊢
      rw [← hblocked] at hrest
      exact .next _ _ _ _ hsome hrest

/-- The generation of a job that is not stuck is later than that of its parents, except for the
parents that were settled before. -/
theorem findIdx_lt (h : Generates parents settled waiting layers stuck) (hjob : job ∈ waiting)
    (hfree : job ∉ stuck) (hparent : parent ∈ parents job) :
    parent ∈ settled ∨ (layers.findIdx fun layer => layer.contains parent) <
      layers.findIdx fun layer => layer.contains job := by
  induction h with
  | done settled waiting _ => exact absurd hjob hfree
  | next settled waiting later stuck _ _ ih =>
      -- The job belongs to this generation, with its parents settled, or it is blocked.
      by_cases hnow : job ∈ readyJobs parents settled waiting
      · exact .inl ((mem_readyJobs.1 hnow).2 parent hparent)
      · rw [findIdx_cons_of_not_mem hnow]
        rcases ih (mem_blockedJobs_of_not_mem hjob hnow) hfree with hsettled | hlt
        · rcases List.mem_append.1 hsettled with hsettled | hfirst
          · exact .inl hsettled
          · rw [findIdx_cons_of_mem hfirst]
            exact .inr (Nat.succ_pos _)
        · right
          by_cases hfirst : parent ∈ readyJobs parents settled waiting
          · rw [findIdx_cons_of_mem hfirst]
            exact Nat.succ_pos _
          · rw [findIdx_cons_of_not_mem hfirst]
            exact Nat.succ_lt_succ hlt

/-- The parents of a job of the first generation are settled. -/
theorem settled_of_findIdx_eq_zero (h : Generates parents settled waiting layers stuck)
    (hjob : job ∈ waiting) (hfree : job ∉ stuck)
    (hzero : (layers.findIdx fun layer => layer.contains job) = 0)
    (hparent : parent ∈ parents job) : parent ∈ settled := by
  rcases h.findIdx_lt hjob hfree hparent with hsettled | hlt
  · exact hsettled
  · rw [hzero] at hlt
    exact absurd hlt (Nat.not_lt_zero _)

/-- A job of a later generation that is not stuck has a parent in the generation right before its
own. -/
theorem exists_parent_findIdx (h : Generates parents settled waiting layers stuck)
    (hjob : job ∈ waiting) (hfree : job ∉ stuck) {place : Nat}
    (hplace : (layers.findIdx fun layer => layer.contains job) = place + 1) :
    ∃ parent ∈ parents job, parent ∉ settled ∧
      (layers.findIdx fun layer => layer.contains parent) = place := by
  induction h generalizing place with
  | done settled waiting _ => exact absurd hjob hfree
  | next settled waiting later stuck _ hrest ih =>
      have hnow : job ∉ readyJobs parents settled waiting := by
        intro hready
        rw [findIdx_cons_of_mem hready] at hplace
        cases hplace
      have hblocked := mem_blockedJobs_of_not_mem hjob hnow
      rw [findIdx_cons_of_not_mem hnow, Nat.add_right_cancel_iff] at hplace
      cases place with
      | zero =>
          -- The job waited only for jobs of this generation.
          obtain ⟨-, parent, hparent, hunsettled⟩ := mem_blockedJobs.1 hblocked
          have hsettled := hrest.settled_of_findIdx_eq_zero hblocked hfree hplace hparent
          have hfirst := (List.mem_append.1 hsettled).resolve_left hunsettled
          exact ⟨parent, hparent, hunsettled, findIdx_cons_of_mem hfirst later⟩
      | succ place =>
          obtain ⟨parent, hparent, hunsettled, heq⟩ := ih hblocked hfree hplace
          rw [List.mem_append, not_or] at hunsettled
          refine ⟨parent, hparent, hunsettled.1, ?_⟩
          rw [findIdx_cons_of_not_mem hunsettled.2, heq]

/-- Stuck jobs are waiting jobs, in the same order. -/
theorem stuck_sublist (h : Generates parents settled waiting layers stuck) :
    stuck.Sublist waiting := by
  induction h with
  | done settled waiting _ => exact List.Sublist.refl waiting
  | next settled waiting later stuck _ _ ih => exact ih.trans List.filter_sublist

/-- Where the parents of waiting jobs are settled or wait as well, a stuck job has a stuck
parent. -/
theorem exists_stuck_parent (h : Generates parents settled waiting layers stuck)
    (hparents : ∀ job ∈ waiting, ∀ parent ∈ parents job, parent ∈ settled ∨ parent ∈ waiting)
    (hjob : job ∈ stuck) : ∃ parent ∈ parents job, parent ∈ stuck := by
  induction h with
  | done settled waiting hnone =>
      have hblocked := mem_blockedJobs_of_not_mem hjob (hnone ▸ List.not_mem_nil)
      obtain ⟨-, parent, hparent, hunsettled⟩ := mem_blockedJobs.1 hblocked
      exact ⟨parent, hparent, (hparents job hjob parent hparent).resolve_left hunsettled⟩
  | next settled waiting later stuck _ _ ih =>
      -- A parent that waited is settled by this generation, or it is blocked with the others.
      refine ih (fun lower hlower parent hparent => ?_) hjob
      rcases hparents lower (mem_blockedJobs.1 hlower).1 parent hparent with hsettled | hwaiting
      · exact .inl (List.mem_append_left _ hsettled)
      · by_cases hnow : parent ∈ readyJobs parents settled waiting
        · exact .inl (List.mem_append_right _ hnow)
        · exact .inr (mem_blockedJobs_of_not_mem hwaiting hnow)

/-- Jobs that are not settled and each of which has one of them as a parent are never settled. -/
theorem mem_stuck (h : Generates parents settled waiting layers stuck) {held : Set JobId}
    (hheld : ∀ job ∈ held, job ∉ settled ∧ ∃ parent ∈ parents job, parent ∈ held)
    (hmem : job ∈ held) (hjob : job ∈ waiting) : job ∈ stuck := by
  induction h with
  | done settled waiting _ => exact hjob
  | next settled waiting later stuck _ _ ih =>
      -- A held job is not ready, as it has a held parent, which is not settled.
      have hnot : ∀ other ∈ held, other ∉ readyJobs parents settled waiting := by
        intro other hother hready
        obtain ⟨-, parent, hparent, hheld'⟩ := hheld other hother
        exact (hheld parent hheld').1 ((mem_readyJobs.1 hready).2 parent hparent)
      refine ih (fun other hother => ⟨?_, (hheld other hother).2⟩)
        (mem_blockedJobs_of_not_mem hjob (hnot job hmem))
      rw [List.mem_append, not_or]
      exact ⟨(hheld other hother).1, hnot other hother⟩

end Generates

end WattPlan
