import WattPlan.Proofs.EarliestFit

/-!
# Reservations one after another

Jobs that are put into an idle timeline one after another leave it sound (`Sound.reserve`). The
check of consistency asks for more: every window ends before the next one in the list begins
(`isConsistent_iff`). A new window breaks this only if it has no length and stands behind a window
that begins at the same instant and has one (`Sound.isConsistent_commit_iff`). `reserve_consistent`
puts this together: where every job takes time, the check holds after every reservation, and the
node is busy until the last of its windows has ended.
-/

namespace WattPlan

open Exact

/-- What is asked of a timeline: a time, the instant from which it is wanted, and the job it is
for. -/
structure Reservation (K : Type) where
  duration : K
  ready : K
  job : JobRef
deriving DecidableEq, Repr

variable {K : Type} [Field K] [LinearOrder K] [FloorRing K] [Exponentials K]

namespace Timeline

/-- The timeline after reservations one after another. -/
def reserve (timeline : Timeline (Exact K)) (reservations : List (Reservation K)) :
    Timeline (Exact K) :=
  reservations.foldl (fun timeline reservation =>
    (timeline.commit (finite reservation.duration) (finite reservation.ready)
      reservation.job).1) timeline

variable {timeline : Timeline (Exact K)}

/-- Each window begins no earlier than another one and no earlier than its end. -/
def Follows (first second : Window (Exact K)) : Prop :=
  first.start ≤ second.start ∧ first.finish ≤ second.start

/-- The windows of a timeline are consistent if each one follows all those before it. -/
theorem isConsistent_iff : timeline.isConsistent = true ↔ timeline.windows.Pairwise Follows := by
  have htrans : IsTrans (Window (Exact K)) Follows :=
    ⟨fun _ _ _ hab hbc => ⟨Exact.le_trans hab.1 hbc.1, Exact.le_trans hab.2 hbc.1⟩⟩
  rw [← List.isChain_iff_pairwise, isConsistent]
  induction timeline.windows with
  | nil => simp [consistentFrom]
  | cons first rest ih =>
      cases rest with
      | nil => simp [consistentFrom]
      | cons second rest =>
          rw [consistentFrom, Bool.and_eq_true, Bool.and_eq_true, decide_eq_true_iff,
            decide_eq_true_iff, List.isChain_cons_cons]
          exact and_congr_right' ih

namespace Sound

/-- A new window that keeps clear of a consistent timeline leaves it consistent just when all
windows that begin no later than the new one have ended when it begins. -/
theorem isConsistent_insert_iff (h : timeline.Sound) (hconsistent : timeline.isConsistent = true)
    {window : Window (Exact K)} {s f : K} (hspans : window.Spans s f)
    (hclear : ∀ other ∈ timeline.windows,
      other.finish ≤ window.start ∨ window.finish ≤ other.start) :
    (timeline.insert window).isConsistent = true ↔
      ∀ other ∈ timeline.windows, other.start ≤ window.start → other.finish ≤ window.start := by
  rw [isConsistent_iff] at hconsistent
  rw [isConsistent_iff, h.pairwise_insert_iff hspans, and_iff_right hconsistent]
  constructor
  · intro hnew other hother hbegun
    exact (hnew.1 other hother hbegun).2
  · intro hended
    refine ⟨fun other hother hbegun => ⟨hbegun, hended other hother hbegun⟩,
      fun other hother hlt => ⟨Exact.le_of_lt hlt, ?_⟩⟩
    -- A window that begins later has not ended when the new one begins.
    obtain ⟨t, e, hstart, hfinish, -, hle⟩ := h.spans other hother
    refine (hclear other hother).resolve_left fun hdone => ?_
    rw [hstart, hspans.1, lt_finite] at hlt
    rw [hfinish, hspans.1, le_finite] at hdone
    exact absurd (hlt.trans_le hle) hdone.not_gt

variable [IsStrictOrderedRing K]

/-- The window that a commit puts into a sound timeline keeps clear of the other windows. -/
theorem exists_commit_eq (h : timeline.Sound) {d : K} (hd : 0 ≤ d) (r : K) (job : JobRef) :
    ∃ s, timeline.commit (finite d) (finite r) job =
        (timeline.insert ⟨finite s, finite (s + d), job⟩, ⟨finite s, finite (s + d), job⟩) ∧
      Window.Spans ⟨finite s, finite (s + d), job⟩ s (s + d) ∧ timeline.Clear d s := by
  obtain ⟨s, hprobe, hs, -, hclear⟩ := h.toSorted.probe_clear d r
  refine ⟨s, ?_, ⟨rfl, rfl, hs, le_add_of_nonneg_right hd⟩, hclear⟩
  simp only [Timeline.commit, hprobe, add_finite]

/-- A commit keeps a timeline sound. -/
theorem commit (h : timeline.Sound) {d : K} (hd : 0 ≤ d) (r : K) (job : JobRef) :
    (timeline.commit (finite d) (finite r) job).1.Sound := by
  obtain ⟨s, hcommit, hspans, hclear⟩ := h.exists_commit_eq hd r job
  rw [hcommit]
  exact h.insert hspans hclear

/-- A commit keeps a sound timeline consistent, except for a window without length behind one that
begins at the same instant and has a length. -/
theorem isConsistent_commit_iff (h : timeline.Sound) (hconsistent : timeline.isConsistent = true)
    {d : K} (hd : 0 ≤ d) (r : K) (job : JobRef) :
    (timeline.commit (finite d) (finite r) job).1.isConsistent = true ↔
      ¬ (d = 0 ∧ ∃ window ∈ timeline.windows,
        window.start = (timeline.commit (finite d) (finite r) job).2.start ∧
          window.start < window.finish) := by
  obtain ⟨s, hcommit, hspans, hclear⟩ := h.exists_commit_eq hd r job
  rw [hcommit, h.isConsistent_insert_iff hconsistent hspans hclear]
  constructor
  · rintro hended ⟨-, window, hwindow, hstart, hlength⟩
    have hbegun : window.start ≤ finite s := by rw [hstart]; exact le_finite.2 le_rfl
    have hdone := hended window hwindow hbegun
    rw [hstart] at hlength
    exact Exact.not_lt_of_le hdone hlength
  · intro hfree window hwindow hbegun
    obtain ⟨a, b, hstart, hfinish, -, -⟩ := h.spans window hwindow
    rcases hclear window hwindow with hdone | hbefore
    · exact hdone
    · -- The job ends by the time at which the window begins, so it takes no time.
      rw [hstart, le_finite] at hbegun hbefore
      obtain rfl : d = 0 := by linarith
      obtain rfl : a = s := by linarith
      rw [hfinish, le_finite]
      by_contra hnot
      refine hfree ⟨rfl, window, hwindow, hstart, ?_⟩
      rw [hstart, hfinish, lt_finite]
      exact not_le.1 hnot

/-- Reservations keep a timeline sound. -/
theorem reserve (h : timeline.Sound) {reservations : List (Reservation K)}
    (hduration : ∀ reservation ∈ reservations, 0 ≤ reservation.duration) :
    (timeline.reserve reservations).Sound := by
  induction reservations generalizing timeline with
  | nil => exact h
  | cons first rest ih =>
      rw [List.forall_mem_cons] at hduration
      exact ih (h.commit hduration.1 first.ready first.job) hduration.2

/-- Reservations that take time keep a sound timeline consistent. -/
theorem isConsistent_reserve (h : timeline.Sound) (hconsistent : timeline.isConsistent = true)
    {reservations : List (Reservation K)}
    (hduration : ∀ reservation ∈ reservations, 0 < reservation.duration) :
    (timeline.reserve reservations).isConsistent = true := by
  induction reservations generalizing timeline with
  | nil => exact hconsistent
  | cons first rest ih =>
      rw [List.forall_mem_cons] at hduration
      refine ih (h.commit hduration.1.le first.ready first.job) ?_ hduration.2
      rw [h.isConsistent_commit_iff hconsistent hduration.1.le]
      rintro ⟨hzero, -⟩
      exact hduration.1.ne' hzero

omit [IsStrictOrderedRing K] in
/-- A node with a consistent timeline is busy until all its windows have ended. -/
theorem finish_le_busyUntil (h : timeline.Sound) (hconsistent : timeline.isConsistent = true) :
    ∀ window ∈ timeline.windows, window.finish ≤ timeline.busyUntil := by
  rw [isConsistent_iff] at hconsistent
  intro window hwindow
  rcases List.eq_nil_or_concat' timeline.windows with hnil | ⟨front, last, hlast⟩
  · simp [hnil] at hwindow
  · have hbusy : timeline.busyUntil = last.finish := by simp [busyUntil, hlast]
    obtain ⟨s, f, hstart, hfinish, -, hle⟩ := h.spans last (by simp [hlast])
    rw [hlast, List.pairwise_append] at hconsistent
    rw [hlast, List.mem_append, List.mem_singleton] at hwindow
    rw [hbusy]
    rcases hwindow with hwindow | rfl
    · have hbefore := (hconsistent.2.2 window hwindow last (List.mem_singleton_self last)).2
      refine Exact.le_trans hbefore ?_
      rwa [hstart, hfinish, le_finite]
    · rw [hfinish, le_finite]

end Sound

/-- A node that has windows is busy until one of them ends. -/
theorem exists_finish_eq_busyUntil {α : Type} [Scalar α] {timeline : Timeline α}
    (h : timeline.windows ≠ []) :
    ∃ window ∈ timeline.windows, window.finish = timeline.busyUntil := by
  refine ⟨timeline.windows.getLast h, List.getLast_mem h, ?_⟩
  simp [busyUntil, List.getLast?_eq_some_getLast h]

/-- After reservations in an idle timeline the windows are sorted by their starts and no instant
lies in two of them. The next reservation keeps the timeline consistent, except for one without
length that is put where a window with a length begins. Where all reservations take time, the
timeline is consistent, and it is busy until the last finish of its windows. -/
theorem reserve_consistent [IsStrictOrderedRing K] {reservations : List (Reservation K)}
    (h : ∀ reservation ∈ reservations, 0 ≤ reservation.duration) :
    ((idle.reserve reservations).windows.Pairwise fun a b => a.start ≤ b.start ∧
      ∀ t, ¬ ((a.start ≤ t ∧ t < a.finish) ∧ b.start ≤ t ∧ t < b.finish)) ∧
    (∀ (d r : K) (job : JobRef), 0 ≤ d → (idle.reserve reservations).isConsistent = true →
      (((idle.reserve reservations).commit (finite d) (finite r) job).1.isConsistent = true ↔
        ¬ (d = 0 ∧ ∃ window ∈ (idle.reserve reservations).windows,
          window.start =
              ((idle.reserve reservations).commit (finite d) (finite r) job).2.start ∧
            window.start < window.finish))) ∧
    ((∀ reservation ∈ reservations, 0 < reservation.duration) →
      (idle.reserve reservations).isConsistent = true ∧
      (∀ window ∈ (idle.reserve reservations).windows,
        window.finish ≤ (idle.reserve reservations).busyUntil) ∧
      ((idle.reserve reservations).windows ≠ [] →
        ∃ window ∈ (idle.reserve reservations).windows,
          window.finish = (idle.reserve reservations).busyUntil)) := by
  have hsound := Sound.idle.reserve h
  refine ⟨?_, fun d r job hd hconsistent => hsound.isConsistent_commit_iff hconsistent hd r job,
    fun hpos => ?_⟩
  · exact (hsound.sorted.and hsound.apart).imp fun hab => ⟨hab.1, hab.2.disjoint⟩
  · have hconsistent := Sound.idle.isConsistent_reserve rfl hpos
    exact ⟨hconsistent, hsound.finish_le_busyUntil hconsistent, exists_finish_eq_busyUntil⟩

end Timeline

namespace TwoWindows

open WithoutExponentials

/-- The windows of a job from 20 on and of two earlier ones, the second without length. -/
def reservations : List (Reservation ℚ) :=
  [⟨10, 20, ⟨1, 2⟩⟩, ⟨10, 0, ⟨1, 0⟩⟩, ⟨0, 5, ⟨1, 1⟩⟩]

/-- One more job without length stands behind the window that begins at 20, where it would have to
be before it. -/
theorem reserved_consistent : (∀ reservation ∈ reservations, 0 ≤ reservation.duration) ∧
    Timeline.idle.reserve reservations = timeline ∧ timeline.isConsistent = true ∧
    (timeline.commit (finite 5) (finite 3) ⟨1, 3⟩).1.isConsistent = true ∧
    (timeline.commit (finite 0) (finite 20) ⟨1, 3⟩).1.isConsistent = false := by
  have hduration : ∀ reservation ∈ reservations, 0 ≤ reservation.duration := by decide
  have heq : Timeline.idle.reserve reservations = timeline := by decide +kernel
  have hconsistent : timeline.isConsistent = true := by decide +kernel
  obtain ⟨-, hnext, -⟩ := Timeline.reserve_consistent hduration
  rw [heq] at hnext
  refine ⟨hduration, heq, hconsistent, ?_, ?_⟩
  · rw [hnext 5 3 ⟨1, 3⟩ (by norm_num) hconsistent]
    norm_num
  · have hstart : (timeline.commit (finite 0) (finite 20) ⟨1, 3⟩).2.start = finite 20 := by
      decide +kernel
    rw [← Bool.not_eq_true, hnext 0 20 ⟨1, 3⟩ le_rfl hconsistent, not_not, hstart]
    exact ⟨rfl, ⟨finite 20, finite 30, ⟨1, 2⟩⟩, by decide +kernel, rfl, by norm_num⟩

end TwoWindows

end WattPlan
