import Mathlib.Order.Bounds.Basic
import WattPlan.Placement
import WattPlan.Proofs.Durations
import WattPlan.Proofs.Gaps

/-!
# The earliest fit

In a sorted timeline the start that is found for a job is the least one, from 0 and from when the
inputs are there, at which the job keeps clear of every window (`Sorted.probe_isLeast`). What
follows for other durations and inputs is `probe_earliest`: a longer or a later job never starts
earlier, and a slower level never finishes earlier.
-/

namespace WattPlan

open Exact

variable {K : Type} [Field K] [LinearOrder K] [FloorRing K] [Exponentials K]

namespace Timeline

/-- Whatever the windows are, no start is found behind one at which the job keeps clear of them. -/
theorem probeFrom_le_of_clear [IsStrictOrderedRing K] {windows : List (Window (Exact K))}
    {d r g t : K} (hfinite : ∀ window ∈ windows, window.start.IsFinite ∧ window.finish.IsFinite)
    (hgap : g ≤ t) (hready : r ≤ t)
    (hclear : ∀ window ∈ windows, window.finish ≤ finite t ∨ finite (t + d) ≤ window.start) :
    probeFrom (finite d) (finite r) (finite g) windows ≤ finite t := by
  induction windows generalizing g with
  | nil =>
      rw [probeFrom, max_finite, le_finite]
      exact max_le hgap hready
  | cons window rest ih =>
      rw [List.forall_mem_cons] at hfinite hclear
      obtain ⟨⟨⟨s, hstart⟩, f, hfinish⟩, hrest⟩ := hfinite
      simp only [probeFrom, max_finite, add_finite, hstart, hfinish, le_finite]
      split
      · exact le_finite.2 (max_le hgap hready)
      · rename_i hnot
        -- The gap before the window is too short for the job, so it comes after the window.
        refine ih hrest (max_le hgap ?_) hclear.2
        rcases hclear.1 with hafter | hbefore
        · rwa [hfinish, le_finite] at hafter
        · rw [hstart, le_finite] at hbefore
          exact absurd ((add_le_add_left (max_le hgap hready) d).trans hbefore) hnot

/-- Whatever the windows are, a longer job never starts earlier. -/
theorem probeFrom_mono_duration [IsStrictOrderedRing K] {windows : List (Window (Exact K))}
    {d d' : K} (hfinite : ∀ window ∈ windows, window.start.IsFinite ∧ window.finish.IsFinite)
    (hd : d ≤ d') (r g : K) :
    ∃ s s', probeFrom (finite d) (finite r) (finite g) windows = finite s ∧
      probeFrom (finite d') (finite r) (finite g) windows = finite s' ∧ max g r ≤ s ∧ s ≤ s' := by
  induction windows generalizing d g with
  | nil => exact ⟨max g r, max g r, max_finite, max_finite, le_rfl, le_rfl⟩
  | cons window rest ih =>
      rw [List.forall_mem_cons] at hfinite
      obtain ⟨⟨⟨b, hstart⟩, f, hfinish⟩, hrest⟩ := hfinite
      simp only [probeFrom, max_finite, add_finite, hstart, hfinish, le_finite]
      have hlater : max g r ≤ max (max g f) r := max_le_max_right r (le_max_left g f)
      by_cases hlong : max g r + d' ≤ b
      · -- A gap that holds the longer job holds the shorter one.
        rw [if_pos (by linarith), if_pos hlong]
        exact ⟨max g r, max g r, rfl, rfl, le_rfl, le_rfl⟩
      · rw [if_neg hlong]
        split
        · obtain ⟨s, s', -, hprobe, hle, hle'⟩ := ih hrest le_rfl (max g f)
          exact ⟨max g r, s', rfl, hprobe, le_rfl, hlater.trans (hle.trans hle')⟩
        · obtain ⟨s, s', hprobe, hprobe', hle, hle'⟩ := ih hrest hd (max g f)
          exact ⟨s, s', hprobe, hprobe', hlater.trans hle, hle'⟩

namespace Sorted

variable {timeline : Timeline (Exact K)}

/-- The start that is found in a sorted timeline is the least one, from 0 and the inputs on, at
which the job keeps clear of every window. -/
theorem probe_isLeast [IsStrictOrderedRing K] (h : timeline.Sorted) (d r : K) :
    ∃ s, timeline.probe (finite d) (finite r) = finite s ∧
      IsLeast {t | max 0 r ≤ t ∧ timeline.Clear d t} s := by
  obtain ⟨s, hprobe, hzero, hready, hclear⟩ := h.probe_clear d r
  refine ⟨s, hprobe, ⟨max_le hzero hready, hclear⟩, ?_⟩
  rintro t ⟨hle, hother⟩
  have hmin := probeFrom_le_of_clear h.isFinite (le_trans (le_max_left 0 r) hle)
    (le_trans (le_max_right 0 r) hle) hother
  rw [← zero_eq] at hmin
  rw [probe] at hprobe
  rwa [hprobe, le_finite] at hmin

/-- A longer job never starts earlier, nor does one whose inputs are there later. -/
theorem probe_mono [IsStrictOrderedRing K] (h : timeline.Sorted) {d d' r r' : K} (hd : d ≤ d')
    (hr : r ≤ r') :
    timeline.probe (finite d) (finite r) ≤ timeline.probe (finite d') (finite r') := by
  obtain ⟨s, hprobe, -, hleast⟩ := h.probe_isLeast d r
  obtain ⟨s', hprobe', ⟨hle, hclear⟩, -⟩ := h.probe_isLeast d' r'
  rw [hprobe, hprobe', le_finite]
  -- What is clear for the longer job is clear for the shorter one.
  refine hleast ⟨(max_le_max le_rfl hr).trans hle, fun window hwindow => ?_⟩
  refine (hclear window hwindow).imp_right fun hbefore => ?_
  exact Exact.le_trans (le_finite.2 (by gcongr)) hbefore

/-- At the start that is found the job can stay. -/
theorem probe_probe [IsStrictOrderedRing K] (h : timeline.Sorted) (d r : K) :
    timeline.probe (finite d) (timeline.probe (finite d) (finite r)) =
      timeline.probe (finite d) (finite r) := by
  obtain ⟨s, hprobe, ⟨hle, hclear⟩, -⟩ := h.probe_isLeast d r
  obtain ⟨t, hprobe', ⟨hle', -⟩, hleast⟩ := h.probe_isLeast d s
  have hts : t ≤ s := hleast ⟨max_le (le_trans (le_max_left 0 r) hle) le_rfl, hclear⟩
  have hst : s ≤ t := le_trans (le_max_right 0 s) hle'
  rw [hprobe, hprobe', hts.antisymm hst]

/-- A longer job finishes later. -/
theorem add_probe_lt [IsStrictOrderedRing K] (h : timeline.Sorted) {d d' : K} (hd : d < d')
    (r : K) :
    finite d + timeline.probe (finite d) (finite r) <
      finite d' + timeline.probe (finite d') (finite r) := by
  have hmono := h.probe_mono hd.le (le_refl r)
  obtain ⟨s, hprobe, -⟩ := h.probe_isLeast d r
  obtain ⟨s', hprobe', -⟩ := h.probe_isLeast d' r
  rw [hprobe, hprobe', le_finite] at hmono
  rw [hprobe, hprobe', add_finite, add_finite, lt_finite]
  exact add_lt_add_of_lt_of_le hd hmono

end Sorted

end Timeline

/-- On a node with finite windows a slower level never finishes a job earlier. -/
theorem Request.evaluate_finish_le [IsStrictOrderedRing K] {request : Request (Exact K)}
    {node : Node (Exact K)}
    (h : ∀ window ∈ (request.timelines.ofNode node.id).windows,
      window.start.IsFinite ∧ window.finish.IsFinite)
    (hlength : Scalar.isAmount request.job.length = true) {fast slow : PowerLevel (Exact K)}
    (hfast : fast.fault? = none) (hslow : slow.fault? = none) (hspeed : slow.speed ≤ fast.speed)
    (r : K) (place place' : Nat) :
    (request.evaluate node (finite r) (fast, place)).finish ≤
      (request.evaluate node (finite r) (slow, place')).finish := by
  obtain ⟨x, hx, hnonneg⟩ := isAmount_iff.1 hlength
  have hle := PowerLevel.duration_le hfast hslow hspeed hnonneg
  obtain ⟨s, s', hprobe, hprobe', -, hstart⟩ := Timeline.probeFrom_mono_duration h hle r 0
  simp only [evaluate, hx, PowerLevel.execTime_eq hfast, PowerLevel.execTime_eq hslow,
    Timeline.probe, zero_eq, hprobe, hprobe', add_finite, le_finite]
  exact add_le_add hstart hle

/-- The start that is found in a sorted timeline is the least one, from 0 and the inputs on, at
which the job keeps clear of every window. It grows with the duration and the time of the inputs,
looking again from it finds it again, a longer job finishes later, and a slower level of the node
never finishes a job earlier. -/
theorem Timeline.probe_earliest [IsStrictOrderedRing K] {timeline : Timeline (Exact K)}
    (h : timeline.Sorted) :
    (∀ d r : K, ∃ s, timeline.probe (finite d) (finite r) = finite s ∧
      IsLeast {t | max 0 r ≤ t ∧
        ∀ window ∈ timeline.windows, window.finish ≤ finite t ∨ finite (t + d) ≤ window.start} s) ∧
    (∀ d d' r r' : K, d ≤ d' → r ≤ r' →
      timeline.probe (finite d) (finite r) ≤ timeline.probe (finite d') (finite r')) ∧
    (∀ d r : K, timeline.probe (finite d) (timeline.probe (finite d) (finite r)) =
      timeline.probe (finite d) (finite r)) ∧
    (∀ d d' r : K, d < d' → finite d + timeline.probe (finite d) (finite r) <
      finite d' + timeline.probe (finite d') (finite r)) ∧
    ∀ (request : Request (Exact K)) (node : Node (Exact K)),
      request.timelines.ofNode node.id = timeline → Scalar.isAmount request.job.length = true →
      ∀ fast slow : PowerLevel (Exact K), fast.fault? = none → slow.fault? = none →
        slow.speed ≤ fast.speed → ∀ (r : K) (place place' : Nat),
          (request.evaluate node (finite r) (fast, place)).finish ≤
            (request.evaluate node (finite r) (slow, place')).finish := by
  refine ⟨h.probe_isLeast, fun d d' r r' => h.probe_mono, h.probe_probe,
    fun d d' r hd => h.add_probe_lt hd r, ?_⟩
  intro request node hnode hlength fast slow hfast hslow hspeed
  rw [← hnode] at h
  exact request.evaluate_finish_le h.isFinite hlength hfast hslow hspeed

/-!
## Two windows

A node that is busy up to 10 and again from 20 to 30, with a window of length 0 in between.
-/

namespace TwoWindows

open WithoutExponentials

def timeline : Timeline (Exact ℚ) :=
  ⟨[⟨finite 0, finite 10, ⟨1, 0⟩⟩, ⟨finite 10, finite 10, ⟨1, 1⟩⟩,
    ⟨finite 20, finite 30, ⟨1, 2⟩⟩]⟩

theorem sorted : timeline.Sorted := by
  constructor
  case isFinite => simp [timeline, IsFinite]
  case sorted => norm_num [timeline]

/-- A job that would end one second after the next begin waits for the end of that window. -/
theorem probe_after_gap : timeline.Sorted ∧
    timeline.probe (finite 4) (finite 17) = finite 30 ∧
    IsLeast {t : ℚ | max 0 17 ≤ t ∧ ∀ window ∈ timeline.windows,
      window.finish ≤ finite t ∨ finite (t + 4) ≤ window.start} 30 ∧
    timeline.probe (finite 3) (finite 16) ≤ timeline.probe (finite 4) (finite 17) ∧
    finite 3 + timeline.probe (finite 3) (finite 17) <
      finite 4 + timeline.probe (finite 4) (finite 17) := by
  obtain ⟨hleast, hmono, -, hlt, -⟩ := Timeline.probe_earliest sorted
  obtain ⟨s, hprobe, hs⟩ := hleast 4 17
  have hvalue : timeline.probe (finite 4) (finite 17) = finite 30 := by decide +kernel
  obtain rfl : s = 30 := Exact.finite.inj (hprobe.symm.trans hvalue)
  exact ⟨sorted, hvalue, hs, hmono 3 4 16 17 (by norm_num) (by norm_num),
    hlt 3 4 17 (by norm_num)⟩

end TwoWindows

end WattPlan
