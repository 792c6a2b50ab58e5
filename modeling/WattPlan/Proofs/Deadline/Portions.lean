import Mathlib.Tactic.FieldSimp
import WattPlan.Proofs.Deadline
import WattPlan.Proofs.Metrics.Growth
import WattPlan.Proofs.Sorting

/-!
# Portions of the slack

Each rule hands a job a portion of the slack beyond its earliest finish (`DeadlinePlan.share_eq`).
The portion lies between none and all of the slack, and it does not shrink along a dependency:
finishes grow, depths grow, and upward ranks fall (`portion_mono`). The place by upward rank is no
exception where every job weighs something, because a parent then has a larger rank than its
children.
-/

namespace WattPlan

open Exact

section Ranking

variable {α : Type} [Scalar α] {workflow : Workflow α} {metrics : Metrics α}

/-- The jobs by descending upward rank are all jobs. -/
theorem Metrics.byUpwardRank_perm : (metrics.byUpwardRank workflow).Perm workflow.jobIds :=
  List.mergeSort_perm _ _

/-- The jobs by descending upward rank are sorted by it, and by number where it is equal. -/
theorem Metrics.byUpwardRank_pairwise [Std.TransCmp (Scalar.totalOrder : α → α → Ordering)] :
    (metrics.byUpwardRank workflow).Pairwise fun a b => ((Scalar.totalOrder (metrics.upwardRank b)
      (metrics.upwardRank a)).then (compare a b)).isLE = true := by
  have hcmp : Std.TransCmp fun a b : JobId =>
      (Scalar.totalOrder (metrics.upwardRank b) (metrics.upwardRank a)).then (compare a b) :=
    transCmp_then_number (transCmp_falling metrics.upwardRank) id
  exact pairwise_mergeSort_isLE workflow.jobIds

end Ranking

variable {K : Type} [Field K] [LinearOrder K] [FloorRing K] [Exponentials K]
  {workflow : Workflow (Exact K)} {metrics : Metrics (Exact K)} {times : JobTimes K}
  {job : Job (Exact K)} {rule : SubDeadlineRule} {base slackFactor : K}

namespace Metrics.Tells

/-- Of two jobs in the order by upward rank, the first one has the larger rank, or the ranks are
equal and it has the smaller number. -/
theorem byUpwardRank_pairwise (h : metrics.Tells workflow times) (harranged : workflow.Arranged) :
    (metrics.byUpwardRank workflow).Pairwise fun a b =>
      times.rank b < times.rank a ∨ times.rank a = times.rank b ∧ a < b := by
  have hnodup := metrics.byUpwardRank_perm.nodup_iff.2 harranged.nodup_jobIds
  refine (metrics.byUpwardRank_pairwise.and hnodup).imp_of_mem fun {a b} ha hb hboth => ?_
  obtain ⟨hle, hne⟩ := hboth
  obtain ⟨first, hfirst, rfl⟩ := List.mem_map.1 (metrics.byUpwardRank_perm.mem_iff.1 ha)
  obtain ⟨second, hsecond, rfl⟩ := List.mem_map.1 (metrics.byUpwardRank_perm.mem_iff.1 hb)
  rw [h.upwardRank first hfirst, h.upwardRank second hsecond] at hle
  change ((compare (times.rank second.id) (times.rank first.id)).then
    (compare first.id second.id)).isLE = true at hle
  rcases lt_trichotomy (times.rank second.id) (times.rank first.id) with hlt | heq | hgt
  · exact .inl hlt
  · rw [compare_eq_iff_eq.2 heq, Ordering.eq_then, Nat.isLE_compare] at hle
    exact .inr ⟨heq.symm, lt_of_le_of_ne hle hne⟩
  · rw [compare_gt_iff_gt.2 hgt] at hle
    cases hle

end Metrics.Tells

/-- Where there is a job, the longest path is not negative. -/
theorem Metrics.Tells.longest_nonneg (h : metrics.Tells workflow times)
    (hjob : job ∈ workflow.jobs) : 0 ≤ times.longest :=
  ((h.weight_nonneg job hjob).trans (h.weight_le_finish job hjob)).trans (h.finish_le job hjob)

/-- The portion of the longest path up to the end of a job is its earliest finish. A longest path of
length 0 leaves no time to any job. -/
theorem Metrics.Tells.finish_div_mul_longest [IsStrictOrderedRing K]
    (h : metrics.Tells workflow times) (hjob : job ∈ workflow.jobs) :
    times.finish job.id / times.longest * times.longest = times.finish job.id := by
  rcases eq_or_ne times.longest 0 with hzero | hne
  · have hweight := h.weight_nonneg job hjob
    have hpart := h.weight_le_finish job hjob
    have hfinish := h.finish_le job hjob
    rw [hzero, mul_zero]
    linarith
  · exact div_mul_cancel₀ _ hne

/-- Where every job weighs something, a parent comes before its children by upward rank. -/
theorem Metrics.Tells.idxOf_byUpwardRank_lt [IsStrictOrderedRing K]
    (h : metrics.Tells workflow times) (harranged : workflow.Arranged)
    (hweights : ∀ job ∈ workflow.jobs, 0 < times.weight job.id) (hjob : job ∈ workflow.jobs)
    {parent : Job (Exact K)} (hupper : parent ∈ workflow.jobs) (hparent : parent.id ∈ job.parents) :
    (metrics.byUpwardRank workflow).idxOf parent.id <
      (metrics.byUpwardRank workflow).idxOf job.id := by
  have hmem : ∀ job ∈ workflow.jobs, job.id ∈ metrics.byUpwardRank workflow := fun job hjob =>
    metrics.byUpwardRank_perm.mem_iff.2 (List.mem_map_of_mem hjob)
  have hlt : times.rank job.id < times.rank parent.id := by
    have hfalls := h.rank_falls job hjob parent.id hparent
    have hpos := hweights parent hupper
    linarith
  refine idxOf_lt_of_pairwise (h.byUpwardRank_pairwise harranged) (hmem parent hupper)
    (hmem job hjob) (fun heq => ?_) ?_
  · rw [heq] at hlt
    exact lt_irrefl _ hlt
  · rintro (hless | ⟨heq, -⟩)
    · exact lt_asymm hlt hless
    · exact hlt.ne heq

namespace DeadlinePlan

/-- The portion of the slack that a rule hands to a job. -/
def portion (times : JobTimes K) (workflow : Workflow (Exact K)) (order : List JobId)
    (job : Job (Exact K)) : SubDeadlineRule → K
  | .eftScaled => times.finish job.id / times.longest
  | .depthShare => (job.depth + 1 : Nat) / (workflow.maxDepth + 1 : Nat)
  | .rankShare => (times.longest - times.rank job.id + times.weight job.id) / times.longest
  | .positionShare => (order.idxOf job.id + 1 : Nat) / (workflow.jobs.length : Nat)

variable [IsStrictOrderedRing K]

/-- No job gets less than nothing of the slack. -/
theorem portion_nonneg (h : metrics.Tells workflow times) (hjob : job ∈ workflow.jobs)
    (order : List JobId) (rule : SubDeadlineRule) : 0 ≤ portion times workflow order job rule := by
  have hlongest := h.longest_nonneg hjob
  have hweight := h.weight_nonneg job hjob
  cases rule with
  | eftScaled => exact div_nonneg (hweight.trans (h.weight_le_finish job hjob)) hlongest
  | rankShare =>
      have hrank := h.rank_le job hjob
      exact div_nonneg (by linarith) hlongest
  | depthShare | positionShare => exact div_nonneg (Nat.cast_nonneg _) (Nat.cast_nonneg _)

/-- No job gets more than all of the slack. -/
theorem portion_le_one (h : metrics.Tells workflow times) (hjob : job ∈ workflow.jobs)
    (rule : SubDeadlineRule) :
    portion times workflow (metrics.byUpwardRank workflow) job rule ≤ 1 := by
  have hlongest := h.longest_nonneg hjob
  cases rule with
  | eftScaled => exact div_le_one_of_le₀ (h.finish_le job hjob) hlongest
  | rankShare =>
      have hweight := h.weight_le_rank job hjob
      exact div_le_one_of_le₀ (by linarith) hlongest
  | depthShare =>
      refine div_le_one_of_le₀ (Nat.cast_le.2 ?_) (Nat.cast_nonneg _)
      exact Nat.succ_le_succ (Workflow.depth_le_maxDepth hjob)
  | positionShare =>
      have hmem : job.id ∈ metrics.byUpwardRank workflow :=
        metrics.byUpwardRank_perm.mem_iff.2 (List.mem_map_of_mem hjob)
      refine div_le_one_of_le₀ (Nat.cast_le.2 ?_) (Nat.cast_nonneg _)
      calc (metrics.byUpwardRank workflow).idxOf job.id + 1
          ≤ (metrics.byUpwardRank workflow).length := List.idxOf_lt_length_of_mem hmem
        _ = workflow.jobs.length := by
          rw [metrics.byUpwardRank_perm.length_eq, Workflow.jobIds, List.length_map]

/-- No job gets a smaller portion of the slack than a parent. For the place by upward rank every job
has to weigh something. -/
theorem portion_mono (h : metrics.Tells workflow times) (harranged : workflow.Arranged)
    (hweights : rule = .positionShare → ∀ job ∈ workflow.jobs, 0 < times.weight job.id)
    (hjob : job ∈ workflow.jobs) {parent : Job (Exact K)} (hupper : parent ∈ workflow.jobs)
    (hparent : parent.id ∈ job.parents) :
    portion times workflow (metrics.byUpwardRank workflow) parent rule ≤
      portion times workflow (metrics.byUpwardRank workflow) job rule := by
  have hlongest := h.longest_nonneg hjob
  have hweight := h.weight_nonneg job hjob
  cases rule with
  | eftScaled =>
      have hgrows := h.finish_grows job hjob parent.id hparent
      exact div_le_div_of_nonneg_right (by linarith) hlongest
  | rankShare =>
      have hfalls := h.rank_falls job hjob parent.id hparent
      exact div_le_div_of_nonneg_right (by linarith) hlongest
  | depthShare =>
      have hlt := harranged.depth_lt hjob hupper hparent
      exact div_le_div_of_nonneg_right (Nat.cast_le.2 (Nat.succ_le_succ hlt.le))
        (Nat.cast_nonneg _)
  | positionShare =>
      have hlt := h.idxOf_byUpwardRank_lt harranged (hweights rfl) hjob hupper hparent
      exact div_le_div_of_nonneg_right (Nat.cast_le.2 (Nat.succ_le_succ hlt.le))
        (Nat.cast_nonneg _)

/-- The share of a job is its earliest finish after the base and its portion of the slack. -/
theorem share_eq (h : metrics.Tells workflow times) (harranged : workflow.Arranged)
    (hjob : job ∈ workflow.jobs) (base slackFactor : K) (rule : SubDeadlineRule) :
    (shares workflow metrics (finite base) (finite slackFactor) rule).getD job.id 0 =
      finite (base + times.finish job.id +
        portion times workflow (metrics.byUpwardRank workflow) job rule *
          (times.longest * slackFactor)) := by
  have hget : workflow.jobs[job.id]? = some job := harranged.job?_id hjob
  have hlongest := h.longest_nonneg hjob
  have hread : ∀ f : Job (Exact K) → Exact K, (workflow.jobs.map f).getD job.id 0 = f job := by
    intro f
    simp [List.getD_eq_getElem?_getD, hget]
  cases rule with
  | eftScaled =>
      simp only [shares, hread, h.earliestFinish job hjob, one_eq, add_finite, mul_finite, portion]
      rw [← mul_assoc, h.finish_div_mul_longest hjob]
      congr 1
      ring
  | depthShare =>
      have hlevels : ((workflow.maxDepth + 1 : Nat) : K) ≠ 0 :=
        Nat.cast_ne_zero.2 (Nat.succ_ne_zero _)
      simp only [shares, hread, h.earliestFinish job hjob, h.criticalPath, ofNat_eq, add_finite,
        mul_finite, div_finite hlevels, portion]
      congr 1
      ring
  | rankShare =>
      rw [shares, hread, h.criticalPath, h.maxUpwardRank, h.earliestFinish job hjob,
        h.upwardRank job hjob, h.weight job hjob, zero_eq]
      simp only [lt_finite, add_finite, sub_finite, mul_finite, portion]
      split
      · rename_i hpos
        rw [div_finite hpos.ne', add_finite]
        congr 1
        ring
      · rename_i hnot
        have hzero : times.longest = 0 := le_antisymm (not_lt.1 hnot) hlongest
        simp [hzero]
  | positionShare =>
      have hjobs : (workflow.jobs.length : K) ≠ 0 :=
        Nat.cast_ne_zero.2 (List.length_pos_of_mem hjob).ne'
      simp only [shares, hread, h.earliestFinish job hjob, h.criticalPath, ofNat_eq, add_finite,
        mul_finite, div_finite hjobs, portion]
      congr 1
      ring

end DeadlinePlan

end WattPlan
