import Mathlib.Data.List.TakeWhile
import WattPlan.Proofs.Exact
import WattPlan.Proofs.Timelines

/-!
# Gaps of a timeline

Over exact quantities a timeline is sorted if its windows are finite and listed by their starts, and
it is sound if they are disjoint as well. The gap that is found for a job in a sorted timeline holds
it clear of all windows (`Sorted.probe_clear`), so a commit keeps a timeline sound (`Sound.insert`).
In any timeline the job starts at the latest when all inputs are there and all windows have ended
(`exists_probe_eq`). Windows of length 0 are the reason why disjointness is symmetric here: one of
them may come behind a window that begins at the same instant.
-/

namespace WattPlan

open Exact

variable {K : Type} [Field K] [LinearOrder K] [FloorRing K] [Exponentials K]

/-- A window begins and ends at two instants from 0 on. -/
def Window.Spans (window : Window (Exact K)) (s f : K) : Prop :=
  window.start = finite s ∧ window.finish = finite f ∧ 0 ≤ s ∧ s ≤ f

/-- One of two windows ends before the other one begins. -/
def Window.Apart (a b : Window (Exact K)) : Prop :=
  a.finish ≤ b.start ∨ b.finish ≤ a.start

/-- No instant lies in two windows that are apart. -/
theorem Window.Apart.disjoint {a b : Window (Exact K)} (h : a.Apart b) (t : Exact K) :
    ¬ ((a.start ≤ t ∧ t < a.finish) ∧ b.start ≤ t ∧ t < b.finish) := by
  rintro ⟨⟨hafter, hbefore⟩, hafter', hbefore'⟩
  rcases h with h | h
  · exact Exact.not_lt_of_le (Exact.le_trans h hafter') hbefore
  · exact Exact.not_lt_of_le (Exact.le_trans h hafter) hbefore'

namespace Timeline

/-- The windows of a timeline are finite and sorted by their starts. -/
structure Sorted (timeline : Timeline (Exact K)) : Prop where
  isFinite : ∀ window ∈ timeline.windows, window.start.IsFinite ∧ window.finish.IsFinite
  sorted : timeline.windows.Pairwise fun a b => a.start ≤ b.start

/-- A job of a duration that starts at an instant keeps clear of every window. -/
def Clear (timeline : Timeline (Exact K)) (d s : K) : Prop :=
  ∀ window ∈ timeline.windows, window.finish ≤ finite s ∨ finite (s + d) ≤ window.start

/-- The windows of a timeline are finite, sorted by their starts, and disjoint. -/
structure Sound (timeline : Timeline (Exact K)) : Prop where
  spans : ∀ window ∈ timeline.windows, ∃ s f, window.Spans s f
  sorted : timeline.windows.Pairwise fun a b => a.start ≤ b.start
  apart : timeline.windows.Pairwise Window.Apart

/-- A sound timeline is sorted. -/
theorem Sound.toSorted {timeline : Timeline (Exact K)} (h : timeline.Sound) : timeline.Sorted :=
  ⟨fun window hwindow => by
    obtain ⟨s, f, hstart, hfinish, -⟩ := h.spans window hwindow
    exact ⟨⟨s, hstart⟩, f, hfinish⟩, h.sorted⟩

/-- The timeline of an idle node is sound. -/
theorem Sound.idle : Sound (Timeline.idle : Timeline (Exact K)) :=
  ⟨by simp [Timeline.idle], List.Pairwise.nil, List.Pairwise.nil⟩

/-- The start that is found is not before the gap and the inputs, and the job then keeps clear of
every window. -/
theorem probeFrom_clear {windows : List (Window (Exact K))} {d r : K} (g : K)
    (hfinite : ∀ window ∈ windows, window.start.IsFinite ∧ window.finish.IsFinite)
    (hsorted : windows.Pairwise fun a b => a.start ≤ b.start) :
    ∃ s, probeFrom (finite d) (finite r) (finite g) windows = finite s ∧ g ≤ s ∧ r ≤ s ∧
      ∀ window ∈ windows, window.finish ≤ finite s ∨ finite (s + d) ≤ window.start := by
  induction windows generalizing g with
  | nil => exact ⟨max g r, max_finite, le_max_left g r, le_max_right g r, by simp⟩
  | cons window rest ih =>
      rw [List.forall_mem_cons] at hfinite
      rw [List.pairwise_cons] at hsorted
      obtain ⟨⟨⟨s, hstart⟩, f, hfinish⟩, hrest⟩ := hfinite
      simp only [probeFrom, max_finite, add_finite, hstart, hfinish, le_finite]
      split
      · rename_i hfits
        refine ⟨max g r, rfl, le_max_left g r, le_max_right g r, ?_⟩
        rw [List.forall_mem_cons]
        refine ⟨.inr (by rw [hstart]; exact le_finite.2 hfits), fun other hother => .inr ?_⟩
        obtain ⟨⟨s', hstart'⟩, -⟩ := hrest other hother
        have hle := hsorted.1 other hother
        rw [hstart, hstart', le_finite] at hle
        rw [hstart', le_finite]
        exact le_trans hfits hle
      · obtain ⟨t, hprobe, hgap, hready, hclear⟩ := ih (max g f) hrest hsorted.2
        refine ⟨t, hprobe, le_trans (le_max_left g f) hgap, hready, ?_⟩
        rw [List.forall_mem_cons]
        refine ⟨.inl ?_, hclear⟩
        rw [hfinish, le_finite]
        exact le_trans (le_max_right g f) hgap

/-- Whatever the windows are, no start before the first gap is found. -/
theorem le_probeFrom {windows : List (Window (Exact K))} {duration ready gap a : Exact K}
    (hgap : a ≤ gap) : a ≤ probeFrom duration ready gap windows := by
  induction windows generalizing gap with
  | nil => exact Exact.le_max_left hgap
  | cons window rest ih =>
      unfold probeFrom
      dsimp only
      split
      · exact Exact.le_max_left hgap
      · exact ih (Exact.le_max_left hgap)

/-- No start is found after the gap, the inputs and all windows. -/
theorem probeFrom_le {windows : List (Window (Exact K))} {duration ready gap a : Exact K}
    (hgap : gap ≤ a) (hready : ready ≤ a) (hwindows : ∀ window ∈ windows, window.finish ≤ a) :
    probeFrom duration ready gap windows ≤ a := by
  induction windows generalizing gap with
  | nil => exact Exact.max_le hgap hready
  | cons window rest ih =>
      rw [List.forall_mem_cons] at hwindows
      unfold probeFrom
      dsimp only
      split
      · exact Exact.max_le hgap hready
      · exact ih (Exact.max_le hgap hwindows.1) hwindows.2

/-- No start before 0 is found. -/
theorem zero_le_probe (timeline : Timeline (Exact K)) (duration ready : Exact K) :
    finite 0 ≤ timeline.probe duration ready :=
  le_probeFrom (by rw [zero_eq, le_finite])

/-- A start is found from 0 on, and no later than when the inputs are there and all windows have
ended. -/
theorem exists_probe_eq {timeline : Timeline (Exact K)} {r m : K} (duration : Exact K) (hm : 0 ≤ m)
    (hready : r ≤ m) (hwindows : ∀ window ∈ timeline.windows, window.finish ≤ finite m) :
    ∃ s, timeline.probe duration (finite r) = finite s ∧ 0 ≤ s ∧ s ≤ m :=
  exists_eq_finite (timeline.zero_le_probe duration (finite r))
    (probeFrom_le (by rwa [zero_eq, le_finite]) (le_finite.2 hready) hwindows)

/-- The start that is found in a sorted timeline is not before 0 and the inputs, and the job keeps
clear of every window. -/
theorem Sorted.probe_clear {timeline : Timeline (Exact K)} (h : timeline.Sorted) (d r : K) :
    ∃ s, timeline.probe (finite d) (finite r) = finite s ∧ 0 ≤ s ∧ r ≤ s ∧ timeline.Clear d s := by
  unfold probe
  rw [zero_eq]
  exact probeFrom_clear 0 h.isFinite h.sorted

namespace Sound

variable {timeline : Timeline (Exact K)}

/-- Behind the windows of a sound timeline that start no later than a window, all start later. -/
theorem start_lt_of_mem_dropWhile (h : timeline.Sound) {window : Window (Exact K)} {s f : K}
    (hspans : window.Spans s f) :
    ∀ other ∈ timeline.windows.dropWhile fun other => decide (other.start ≤ window.start),
      window.start < other.start := by
  have hsorted := h.sorted.sublist
    (List.dropWhile_sublist fun other => decide (other.start ≤ window.start))
  have hhead := List.head?_dropWhile_not
    (fun other : Window (Exact K) => decide (other.start ≤ window.start)) timeline.windows
  have hmem := (List.dropWhile_sublist (l := timeline.windows)
    fun other => decide (other.start ≤ window.start)).subset
  generalize timeline.windows.dropWhile (fun other => decide (other.start ≤ window.start)) = later
    at hsorted hhead hmem ⊢
  cases later with
  | nil => simp
  | cons first rest =>
      -- Only for finite starts does "not at most" mean "above".
      have hfirst : window.start < first.start := by
        obtain ⟨t, -, hstart, -⟩ := h.spans first (hmem List.mem_cons_self)
        have hnot : ¬ first.start ≤ window.start := by simpa using hhead
        rw [hstart, hspans.1, le_finite, not_le] at hnot
        rwa [hstart, hspans.1, lt_finite]
      rw [List.pairwise_cons] at hsorted
      rw [List.forall_mem_cons]
      exact ⟨hfirst, fun other hother => Exact.lt_of_lt_of_le hfirst (hsorted.1 other hother)⟩

/-- A relation holds along a sound timeline with a new window just when it held before, from the
windows that start no later than the new one to that one, and from there to those that start
later. -/
theorem pairwise_insert_iff (h : timeline.Sound) {window : Window (Exact K)} {s f : K}
    (hspans : window.Spans s f) {r : Window (Exact K) → Window (Exact K) → Prop} :
    (timeline.insert window).windows.Pairwise r ↔ timeline.windows.Pairwise r ∧
      (∀ other ∈ timeline.windows, other.start ≤ window.start → r other window) ∧
      ∀ other ∈ timeline.windows, window.start < other.start → r window other := by
  have hsplit := List.takeWhile_append_dropWhile
    (p := fun other : Window (Exact K) => decide (other.start ≤ window.start))
    (l := timeline.windows)
  have hlater := h.start_lt_of_mem_dropWhile hspans
  have hearlier : ∀ other ∈ timeline.windows.takeWhile fun other =>
      decide (other.start ≤ window.start), other.start ≤ window.start := by
    intro other hother
    simpa using List.mem_takeWhile_imp hother
  show List.Pairwise r (_ ++ window :: _) ↔ _
  generalize timeline.windows.takeWhile (fun other => decide (other.start ≤ window.start)) = front,
    timeline.windows.dropWhile (fun other => decide (other.start ≤ window.start)) = back
    at hsplit hlater hearlier ⊢
  simp only [← hsplit, List.pairwise_append, List.pairwise_cons, List.forall_mem_cons,
    List.mem_append]
  constructor
  · rintro ⟨hfront, ⟨hafter, hback⟩, hacross⟩
    refine ⟨⟨hfront, hback, fun a ha b hb => (hacross a ha).2 b hb⟩, ?_, ?_⟩
    · rintro other (hother | hother) hle
      · exact (hacross other hother).1
      · exact absurd (hlater other hother) (Exact.not_lt_of_le hle)
    · rintro other (hother | hother) hlt
      · exact absurd hlt (Exact.not_lt_of_le (hearlier other hother))
      · exact hafter other hother
  · rintro ⟨⟨hfront, hback, hacross⟩, hbefore, hafter⟩
    refine ⟨hfront, ⟨fun b hb => hafter b (.inr hb) (hlater b hb), hback⟩, fun a ha => ?_⟩
    exact ⟨hbefore a (.inl ha) (hearlier a ha), hacross a ha⟩

/-- A window that keeps clear of those of a sound timeline can be put into it. -/
theorem insert (h : timeline.Sound) {window : Window (Exact K)} {s f : K}
    (hspans : window.Spans s f)
    (hclear : ∀ other ∈ timeline.windows,
      other.finish ≤ window.start ∨ window.finish ≤ other.start) :
    (timeline.insert window).Sound := by
  constructor
  case spans =>
    intro other hother
    rcases mem_insert.1 hother with rfl | hother
    · exact ⟨s, f, hspans⟩
    · exact h.spans other hother
  case sorted =>
    exact (h.pairwise_insert_iff hspans).2
      ⟨h.sorted, fun _ _ hle => hle, fun _ _ hlt => Exact.le_of_lt hlt⟩
  case apart =>
    exact (h.pairwise_insert_iff hspans).2
      ⟨h.apart, fun other hother _ => hclear other hother,
        fun other hother _ => (hclear other hother).symm⟩

end Sound

end Timeline

/-- Idle timelines are sound. -/
theorem Timelines.sound_idle (count : Nat) (node : NodeId) :
    ((idle count : Timelines (Exact K)).ofNode node).Sound := by
  rw [ofNode_idle]
  exact Timeline.Sound.idle

end WattPlan
