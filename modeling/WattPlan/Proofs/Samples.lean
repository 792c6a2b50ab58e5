import Mathlib.Data.List.Nodup
import WattPlan.Proofs.Draws

/-!
# Samples

A sample is drawn by replacement or by exchange. Either way it holds as many distinct numbers below
the size as were asked for, whatever the generator is: `Generator.sample_yields`. Replacement keeps
the numbers drawn so far distinct and below the bound of the next draw (`IsSample.insertDrawn`);
exchange permutes the numbers below the size.
-/

namespace WattPlan

namespace Generator

open Draw

/-- Some distinct numbers below a size. -/
structure IsSample (size count : Nat) (chosen : List Nat) : Prop where
  nodup : chosen.Nodup
  length : chosen.length = count
  lt : ∀ n ∈ chosen, n < size

/-- A step of sampling by replacement adds one number. -/
theorem IsSample.insertDrawn {bound count drawn : Nat} {chosen : List Nat}
    (h : IsSample bound count chosen) (hdrawn : drawn < bound + 1) :
    IsSample (bound + 1) (count + 1) (insertDrawn chosen bound drawn) := by
  unfold Generator.insertDrawn
  split
  · rename_i hmem
    have hlt := h.lt drawn hmem
    constructor
    case nodup =>
      rw [← List.concat_eq_append]
      refine List.Nodup.concat (fun hagain => ?_) (h.nodup.map_on fun x hx y hy heq => ?_)
      · obtain ⟨x, hx, heq⟩ := List.mem_map.1 hagain
        split at heq <;> omega
      · have hxlt := h.lt x hx
        have hylt := h.lt y hy
        split at heq <;> split at heq <;> omega
    case length => simp [h.length]
    case lt =>
      rw [List.forall_mem_append, List.forall_mem_map, List.forall_mem_singleton]
      refine ⟨fun x hx => ?_, hdrawn⟩
      have hxlt := h.lt x hx
      split <;> omega
  · rename_i hnew
    constructor
    case nodup =>
      rw [← List.concat_eq_append]
      exact h.nodup.concat hnew
    case length => simp [h.length]
    case lt =>
      rw [List.forall_mem_append, List.forall_mem_singleton]
      exact ⟨fun x hx => Nat.lt_succ_of_lt (h.lt x hx), hdrawn⟩

/-- Sampling by replacement adds as many numbers as it has draws. -/
theorem sampleByReplacement_yields (count : Nat) {bound made : Nat} {chosen : List Nat}
    (h : IsSample bound made chosen) :
    Yields (sampleByReplacement count bound chosen) (IsSample (bound + count) (made + count)) := by
  induction count generalizing bound made chosen with
  | zero => exact Yields.pure h
  | succ count ih =>
      refine (below_yields (Nat.succ_pos bound)).bind fun drawn hdrawn => ?_
      have hnext := ih (h.insertDrawn hdrawn)
      rwa [Nat.add_right_comm bound 1, Nat.add_right_comm made 1] at hnext

/-- Sampling by exchange permutes the numbers. -/
theorem sampleByExchange_yields (count place : Nat) (numbers : List Nat) :
    Yields (sampleByExchange count place numbers) (List.Perm · numbers) := by
  induction count generalizing place numbers with
  | zero => exact Yields.pure (List.Perm.refl numbers)
  | succ count ih =>
      refine Yields.bind Yields.trivial fun offset _ => ?_
      exact fun generator => (ih (place + 1) _ generator).trans (swapAt_perm numbers _ _)

/-- A sample holds as many distinct numbers below the size as were asked for. -/
theorem sample_yields {size count : Nat} (h : count ≤ size) :
    Yields (sample size count) (IsSample size count) := by
  unfold sample
  split
  · have hempty : IsSample (size - count) 0 [] := ⟨List.nodup_nil, rfl, by simp⟩
    have hsample := sampleByReplacement_yields count hempty
    rwa [Nat.sub_add_cancel h, Nat.zero_add] at hsample
  · refine (sampleByExchange_yields count 0 (List.range size)).bind fun numbers hperm => ?_
    have htaken := List.take_sublist count numbers
    refine Yields.pure ⟨?_, ?_, fun n hn => ?_⟩
    · exact (hperm.nodup_iff.2 List.nodup_range).sublist htaken
    · rw [List.length_take, hperm.length_eq, List.length_range, Nat.min_eq_left h]
    · exact List.mem_range.1 (hperm.mem_iff.1 (htaken.subset hn))

end Generator

end WattPlan
