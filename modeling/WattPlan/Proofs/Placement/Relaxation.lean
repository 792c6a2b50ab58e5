import WattPlan.Proofs.Placement.Considered

/-!
# Slowing a job down

A job that keeps clear of all windows ends before those that begin after its start. It may take
longer as long as this holds: it still starts at the same time (`Clear.longer`,
`Sorted.probe_eq_of_clear`). The span that is left to slower levels ends at the next window and at
the sub-deadline, less a share of the idle time before it, so a level that keeps to the span is never
turned down for its start or its finish (`Relaxes.slower_feasible`). With a share of at most all the
idle time, the fastest level keeps to the span, too, and the slowest level that does is taken:
`tryNode_relaxes`.
-/

namespace WattPlan

open Exact

variable {K : Type} [Field K] [LinearOrder K] [FloorRing K] [Exponentials K]

/-- The last of some members of a list that are kept with their places has the greatest place. -/
theorem le_of_getLast?_filter {β : Type} {xs : List β} {k : Nat} {p : β × Nat → Bool}
    {last : β × Nat} (h : ((xs.zipIdx k).filter p).getLast? = some last) :
    ∀ kept ∈ (xs.zipIdx k).filter p, kept.2 ≤ last.2 := by
  have hplaces : (xs.zipIdx k).Pairwise fun a b => a.2 < b.2 := by
    rw [← List.pairwise_map (f := Prod.snd) (R := (· < ·)), List.zipIdx_map_snd]
    exact List.pairwise_lt_range'
  obtain ⟨front, hsplit⟩ := List.getLast?_eq_some_iff.1 h
  have hkept := hplaces.filter p
  rw [hsplit, List.pairwise_append] at hkept
  rw [hsplit]
  intro kept hmem
  rcases List.mem_append.1 hmem with hfront | hlast
  · exact (hkept.2.2 kept hfront last List.mem_cons_self).le
  · rw [List.mem_singleton.1 hlast]

namespace Timeline

variable {timeline : Timeline (Exact K)} {d d' r s : K} {t next : Exact K}

/-- No window ends before it begins. -/
def Forward (timeline : Timeline (Exact K)) : Prop :=
  ∀ window ∈ timeline.windows, window.start ≤ window.finish

/-- Where no next start is found, no window begins later. -/
theorem not_lt_of_nextStart?_eq_none (h : timeline.nextStart? t = none) :
    ∀ window ∈ timeline.windows, ¬ t < window.start := by
  intro window hwindow
  simpa using List.find?_eq_none.1 h window.start (List.mem_map_of_mem hwindow)

/-- The next start is that of a window that begins later, and no other one begins between. -/
theorem Sorted.nextStart?_spec (h : timeline.Sorted) (hnext : timeline.nextStart? t = some next) :
    (∃ window ∈ timeline.windows, window.start = next) ∧ t < next ∧
      ∀ window ∈ timeline.windows, t < window.start → next ≤ window.start := by
  have hmem : ∃ window ∈ timeline.windows, window.start = next :=
    List.mem_map.1 (List.mem_of_find?_eq_some hnext)
  obtain ⟨hlater, before, after, hsplit, hbefore⟩ := List.find?_eq_some_iff_append.1 hnext
  have hsorted : (timeline.windows.map Window.start).Pairwise (· ≤ ·) := List.pairwise_map.2 h.sorted
  rw [hsplit, List.pairwise_append, List.pairwise_cons] at hsorted
  refine ⟨hmem, of_decide_eq_true hlater, fun window hwindow hlt => ?_⟩
  have hstart : window.start ∈ before ++ next :: after := hsplit ▸ List.mem_map_of_mem hwindow
  rcases List.mem_append.1 hstart with hstart | hstart
  · have hnot := hbefore _ hstart
    simp [hlt] at hnot
  · rcases List.mem_cons.1 hstart with heq | hstart
    · obtain ⟨x, hx⟩ := (h.isFinite window hwindow).1
      rw [← heq, hx, le_finite]
    · exact hsorted.2.1.1 _ hstart

/-- A job that keeps clear of all windows ends before those that begin after its start. -/
theorem Clear.le_later (h : timeline.Clear d s) (hforward : timeline.Forward)
    {window : Window (Exact K)} (hwindow : window ∈ timeline.windows)
    (hlater : finite s < window.start) : finite (s + d) ≤ window.start := by
  refine (h window hwindow).resolve_left fun hafter => ?_
  exact Exact.not_lt_of_le (Exact.le_trans (hforward window hwindow) hafter) hlater

/-- A job may take longer as long as it ends before the windows that begin after its start. -/
theorem Clear.longer [IsStrictOrderedRing K] (h : timeline.Clear d s) (hsorted : timeline.Sorted)
    (hd : 0 ≤ d) (hzero : d = 0 → d' = 0)
    (hlater : ∀ window ∈ timeline.windows, finite s < window.start →
      finite (s + d') ≤ window.start) : timeline.Clear d' s := by
  intro window hwindow
  obtain ⟨b, hstart⟩ := (hsorted.isFinite window hwindow).1
  by_cases hlt : finite s < window.start
  · exact .inr (hlater window hwindow hlt)
  · refine (h window hwindow).imp_right fun hbefore => ?_
    -- A job that ends before a window that does not begin after its start takes no time.
    rw [hstart, lt_finite, not_lt] at hlt
    rw [hstart, le_finite] at hbefore ⊢
    have hnone : d = 0 := by linarith
    rwa [hzero hnone, ← hnone]

/-- Where a job can take longer at the start that is found for it, the longer job is found the same
start. -/
theorem Sorted.probe_eq_of_clear [IsStrictOrderedRing K] (h : timeline.Sorted)
    (hprobe : timeline.probe (finite d) (finite r) = finite s) (hd : d ≤ d')
    (hclear : timeline.Clear d' s) : timeline.probe (finite d') (finite r) = finite s := by
  have hmono := h.probe_mono hd (le_refl r)
  obtain ⟨s₁, hprobe₁, ⟨hready, -⟩, -⟩ := h.probe_isLeast d r
  obtain ⟨s', hprobe', -, hleast⟩ := h.probe_isLeast d' r
  obtain rfl : s₁ = s := Exact.finite.inj (hprobe₁.symm.trans hprobe)
  rw [hprobe, hprobe', le_finite] at hmono
  rw [hprobe', le_antisymm (hleast ⟨hready, hclear⟩) hmono]

end Timeline

namespace Request

/-- The latest finish of a slowed job: the start of the next window or the sub-deadline. -/
def latestFinish {α : Type} [Scalar α] (request : Request α) (fastest : Candidate α) : α :=
  Scalar.min (((request.timelines.ofNode fastest.node.id).nextStart? fastest.start).getD
    Scalar.infinity) request.subDeadline

/-- The places of the levels of a node at which the job takes at most a given time. -/
def placesWithin {α : Type} [Scalar α] (request : Request α) (node : Node α) (time : α) : Set Nat :=
  {place | ∃ level, (level, place) ∈ node.levels.zipIdx ∧ level.execTime request.job.length ≤ time}

section Span

variable {request : Request (Exact K)} {fastest : Candidate (Exact K)} {l b s f : K}

/-- The span of a candidate is computed from its latest finish, where that is finite. -/
theorem span_eq (request : Request (Exact K)) (fastest : Candidate (Exact K)) :
    request.span fastest = if Scalar.isFinite (request.latestFinish fastest) then
      request.latestFinish fastest - request.problem.beta *
        (request.latestFinish fastest - fastest.finish) - fastest.start else infinity :=
  rfl

/-- The span before a latest finish: what is left of the time from the start on, less a share of the
time after the fastest level. -/
theorem span_eq_of_finite (hlatest : request.latestFinish fastest = finite l)
    (hbeta : request.problem.beta = finite b) (hstart : fastest.start = finite s)
    (hfinish : fastest.finish = finite f) :
    request.span fastest = finite (l - b * (l - f) - s) := by
  rw [span_eq, hlatest, hbeta, hstart, hfinish, sub_finite, mul_finite, sub_finite, sub_finite]
  rfl

/-- Where the finish is without limit, so is the span. -/
theorem span_eq_of_infinite (hlatest : request.latestFinish fastest = infinity) :
    request.span fastest = infinity := by
  rw [span_eq, hlatest]
  rfl

end Span

/-- A level keeps to a span if the job does not take longer and the level does not fall short of the
sub-goal. -/
theorem fitsSpan_iff {request : Request (Exact K)} {span : Exact K} {level : PowerLevel (Exact K)} :
    request.fitsSpan span level = true ↔ ¬ span < level.execTime request.job.length ∧
      ¬ level.reliability request.job.length < request.subGoal := by
  rw [fitsSpan, Bool.and_eq_true, Bool.not_eq_true', decide_eq_false_iff_not, Bool.not_eq_true',
    decide_eq_false_iff_not]

/-- A considered node that slows jobs down. Its windows are sorted by their starts, and none of them
ends before it begins. -/
structure Relaxes (request : Request (Exact K)) (node : Node (Exact K)) (x r : K) : Prop extends
    request.Considers node x r where
  search : request.problem.profile.levelSearch = .fastestThenRelax
  sorted : (request.timelines.ofNode node.id).Sorted
  forward : (request.timelines.ofNode node.id).Forward

namespace Relaxes

variable {request : Request (Exact K)} {node : Node (Exact K)} {x r b s : K}

/-- A candidate of the node keeps clear of all windows from its start on. -/
theorem exists_clear [IsStrictOrderedRing K] (h : request.Relaxes node x r)
    {level : PowerLevel (Exact K)} (hlevel : level ∈ node.levels) (place : Nat) :
    ∃ s, (request.timelines.ofNode node.id).probe (finite (level.duration x)) (finite r) =
        finite s ∧
      (request.evaluate node (request.readyTime node) (level, place)).start = finite s ∧
      (request.evaluate node (request.readyTime node) (level, place)).finish =
        finite (s + level.duration x) ∧
      (request.timelines.ofNode node.id).Clear (level.duration x) s := by
  obtain ⟨s, hprobe, hstart, hfinish⟩ := h.exists_start hlevel place
  obtain ⟨t, hprobe', -, -, hclear⟩ := h.sorted.probe_clear (level.duration x) r
  obtain rfl : s = t := Exact.finite.inj (hprobe.symm.trans hprobe')
  exact ⟨s, hprobe, hstart, hfinish, hclear⟩

/-- The candidate of the fastest level keeps clear of all windows from its start on. -/
theorem exists_fastest [IsStrictOrderedRing K] (h : request.Relaxes node x r) :
    ∃ s, (request.timelines.ofNode node.id).probe (finite (node.fastest.duration x)) (finite r) =
        finite s ∧
      (request.evaluateFastest node).start = finite s ∧
      (request.evaluateFastest node).finish = finite (s + node.fastest.duration x) ∧
      (request.timelines.ofNode node.id).Clear (node.fastest.duration x) s :=
  h.exists_clear List.mem_cons_self 0

/-- The latest finish is not before the finish of a feasible fastest level, nor behind the
sub-deadline or the start of a later window. It is without limit where there are none of these. -/
theorem latestFinish_cases (h : request.Relaxes node x r)
    (hstart : (request.evaluateFastest node).start = finite s)
    (hfinish : (request.evaluateFastest node).finish = finite (s + node.fastest.duration x))
    (hclear : (request.timelines.ofNode node.id).Clear (node.fastest.duration x) s)
    (hfeasible : request.feasible (request.evaluateFastest node) = true) :
    (∃ l, request.latestFinish (request.evaluateFastest node) = finite l ∧
      s + node.fastest.duration x ≤ l ∧ finite l ≤ request.subDeadline ∧
      ∀ window ∈ (request.timelines.ofNode node.id).windows, finite s < window.start →
        finite l ≤ window.start) ∨
    (request.latestFinish (request.evaluateFastest node) = infinity ∧
      request.subDeadline = infinity ∧
      ∀ window ∈ (request.timelines.ofNode node.id).windows, ¬ finite s < window.start) := by
  have hlatest : request.latestFinish (request.evaluateFastest node) =
      Scalar.min (((request.timelines.ofNode node.id).nextStart? (finite s)).getD Scalar.infinity)
        request.subDeadline := by
    rw [← hstart]
    rfl
  rw [feasible, Bool.and_eq_true, decide_eq_true_iff, hfinish] at hfeasible
  have hdeadline := finite_le_iff.1 hfeasible.1
  rw [hlatest]
  cases hnext : (request.timelines.ofNode node.id).nextStart? (finite s) with
  | none =>
      have hnone := Timeline.not_lt_of_nextStart?_eq_none hnext
      rcases hdeadline with ⟨m, hm, hle⟩ | hnever
      · rw [hm]
        exact .inl ⟨m, rfl, hle, le_finite.2 le_rfl, fun window hwindow hlater =>
          absurd hlater (hnone window hwindow)⟩
      · rw [hnever]
        exact .inr ⟨rfl, rfl, hnone⟩
  | some next =>
      obtain ⟨⟨first, hfirst, hbegins⟩, hlater, hleast⟩ := h.sorted.nextStart?_spec hnext
      obtain ⟨y, hy⟩ := (h.windows first hfirst).1
      obtain rfl : next = finite y := hbegins.symm.trans hy
      have hends : s + node.fastest.duration x ≤ y := by
        have hle := hclear.le_later h.forward hfirst (by rwa [hy])
        rwa [hy, le_finite] at hle
      left
      rcases hdeadline with ⟨m, hm, hle⟩ | hnever
      · rw [hm]
        refine ⟨min y m, min_finite, le_min hends hle, le_finite.2 (min_le_right y m),
          fun window hwindow hafter => ?_⟩
        exact Exact.le_trans (le_finite.2 (min_le_left y m)) (hleast window hwindow hafter)
      · rw [hnever]
        exact ⟨y, rfl, hends, trivial, hleast⟩

/-- A slower level that fits the span starts at the same time as the feasible fastest one, and it is
feasible, too. -/
theorem slower_feasible [IsStrictOrderedRing K] (h : request.Relaxes node x r)
    (hbeta : request.problem.beta = finite b) (hb : 0 ≤ b)
    (hfeasible : request.feasible (request.evaluateFastest node) = true)
    {level : PowerLevel (Exact K)} {place : Nat} (hchoice : (level, place) ∈ node.slower.zipIdx 1)
    (hfits : request.fitsSpan (request.span (request.evaluateFastest node)) level = true) :
    (request.evaluate node (request.readyTime node) (level, place)).start =
        (request.evaluateFastest node).start ∧
      request.feasible (request.evaluate node (request.readyTime node) (level, place)) = true := by
  have hplace : (level, place) ∈ node.levels.zipIdx := by
    rw [levels_zipIdx]
    exact List.mem_cons_of_mem _ hchoice
  have hslower := List.fst_mem_of_mem_zipIdx hchoice
  have hlevel := List.fst_mem_of_mem_zipIdx hplace
  have hlonger : node.fastest.duration x ≤ level.duration x :=
    (List.pairwise_cons.1 (h.drafted.durations_pairwise h.listed h.nonneg)).1 level hslower
  obtain ⟨s, hprobe, hstart, hfinish, hclear⟩ := h.exists_fastest
  obtain ⟨hspan, hreliable⟩ := fitsSpan_iff.1 hfits
  rw [h.execTime_eq hlevel] at hspan
  -- The slower level finishes by the sub-deadline and before the windows that begin later.
  have hroom : finite (s + level.duration x) ≤ request.subDeadline ∧
      ∀ window ∈ (request.timelines.ofNode node.id).windows, finite s < window.start →
        finite (s + level.duration x) ≤ window.start := by
    rcases h.latestFinish_cases hstart hfinish hclear hfeasible with
      ⟨l, hlatest, hle, hsub, hlater⟩ | ⟨-, hsub, hnone⟩
    · rw [span_eq_of_finite hlatest hbeta hstart hfinish, lt_finite, not_lt] at hspan
      have hidle : 0 ≤ b * (l - (s + node.fastest.duration x)) := mul_nonneg hb (sub_nonneg.2 hle)
      have hends : s + level.duration x ≤ l := by linarith
      exact ⟨Exact.le_trans (le_finite.2 hends) hsub, fun window hwindow hafter =>
        Exact.le_trans (le_finite.2 hends) (hlater window hwindow hafter)⟩
    · rw [hsub]
      exact ⟨trivial, fun window hwindow hlater => absurd hlater (hnone window hwindow)⟩
  have hfastest : node.fastest.fault? = none := h.fault List.mem_cons_self
  have hzero : node.fastest.duration x = 0 → level.duration x = 0 := by
    rw [PowerLevel.duration_eq_zero_iff hfastest, PowerLevel.duration_eq_zero_iff (h.fault hlevel)]
    exact id
  have hsame := h.sorted.probe_eq_of_clear hprobe hlonger
    (hclear.longer h.sorted (PowerLevel.duration_nonneg hfastest h.nonneg) hzero hroom.2)
  obtain ⟨t, hprobe', hstart', hfinish'⟩ := h.exists_start hlevel place
  obtain rfl : s = t := Exact.finite.inj (hsame.symm.trans hprobe')
  refine ⟨hstart'.trans hstart.symm, (h.feasible_iff_admits (List.mem_map_of_mem hplace)).2 ⟨?_, ?_⟩⟩
  · rw [hfinish']
    exact Exact.not_lt_of_le hroom.1
  · exact hreliable

/-- The candidate of the node is the slowed one, if that of the fastest level is feasible. -/
theorem tryNode_eq (h : request.Relaxes node x r) : request.tryNode node =
    if request.feasible (request.evaluateFastest node) = true then
      some (request.relax (request.readyTime node) (request.evaluateFastest node)) else none := by
  simp only [tryNode, h.search, Option.filter]
  split <;> rfl

/-- Slowing a feasible fastest level down gives a feasible level with the same start. -/
theorem relax_eq_evaluate (hfeasible : request.feasible (request.evaluateFastest node) = true) :
    ∃ choice ∈ node.levels.zipIdx,
      request.relax (request.readyTime node) (request.evaluateFastest node) =
        request.evaluate node (request.readyTime node) choice ∧
      request.feasible (request.evaluate node (request.readyTime node) choice) = true ∧
      (request.evaluate node (request.readyTime node) choice).start =
        (request.evaluateFastest node).start := by
  have hfastest : (node.fastest, 0) ∈ node.levels.zipIdx := List.mem_cons_self
  unfold relax
  split
  · exact ⟨_, hfastest, rfl, hfeasible, rfl⟩
  · rename_i choice hchoice
    dsimp only
    split
    · rename_i hkept
      obtain ⟨hstart, hrelaxed⟩ := Bool.and_eq_true_iff.1 hkept
      refine ⟨choice, ?_, rfl, hrelaxed, eq_of_beq hstart⟩
      rw [levels_zipIdx]
      exact List.mem_cons_of_mem _ ((List.takeWhile_prefix _).subset (List.mem_of_getLast? hchoice))
    · exact ⟨_, hfastest, rfl, hfeasible, rfl⟩

/-- A candidate at one of the levels ends before the windows that begin after its start. -/
theorem finish_le_next [IsStrictOrderedRing K] (h : request.Relaxes node x r)
    {choice : PowerLevel (Exact K) × Nat} (hchoice : choice ∈ node.levels.zipIdx) :
    ∀ next ∈ (request.timelines.ofNode node.id).nextStart?
        (request.evaluate node (request.readyTime node) choice).start,
      (request.evaluate node (request.readyTime node) choice).finish ≤ next := by
  intro next hnext
  obtain ⟨level, place⟩ := choice
  obtain ⟨s, -, hstart, hfinish, hclear⟩ :=
    h.exists_clear (List.fst_mem_of_mem_zipIdx hchoice) place
  rw [hstart] at hnext
  obtain ⟨⟨window, hwindow, rfl⟩, hlater, -⟩ := h.sorted.nextStart?_spec hnext
  rw [hfinish]
  exact hclear.le_later h.forward hwindow hlater

/-- The level that is chosen for a feasible fastest one is the level that is returned. -/
theorem relax_eq [IsStrictOrderedRing K] (h : request.Relaxes node x r)
    (hbeta : request.problem.beta = finite b) (hb : 0 ≤ b)
    (hfeasible : request.feasible (request.evaluateFastest node) = true) :
    request.relax (request.readyTime node) (request.evaluateFastest node) =
      request.evaluate node (request.readyTime node)
        ((request.relaxedLevel? (request.evaluateFastest node)).getD (node.fastest, 0)) := by
  unfold relax
  cases hchosen : request.relaxedLevel? (request.evaluateFastest node) with
  | none => rfl
  | some choice =>
      have hmem := List.mem_of_getLast? hchosen
      have hfits := List.mem_takeWhile_imp hmem
      have hslower := (List.takeWhile_prefix _).subset hmem
      obtain ⟨level, place⟩ := choice
      obtain ⟨hstart, hrelaxed⟩ := h.slower_feasible hbeta hb hfeasible hslower hfits
      obtain ⟨s, -, hfinite, -⟩ := h.exists_fastest
      refine if_pos ?_
      have hsame : ((request.evaluate node (request.readyTime node) (level, place)).start ==
          (request.evaluateFastest node).start) = true := by
        rw [hstart, hfinite]
        exact decide_eq_true rfl
      exact Bool.and_eq_true_iff.2 ⟨hsame, hrelaxed⟩

/-- If no level falls short of the sub-goal and the fastest one keeps to the span, the level that is
chosen is the slowest one that keeps to it. -/
theorem relaxedLevel_isGreatest [IsStrictOrderedRing K] (h : request.Relaxes node x r)
    (hdefined : request.span (request.evaluateFastest node) ≠ undefined)
    (hfastest : finite (node.fastest.duration x) ≤ request.span (request.evaluateFastest node))
    (hreliable : ∀ level ∈ node.levels,
      ¬ level.reliability request.job.length < request.subGoal) :
    IsGreatest (request.placesWithin node (request.span (request.evaluateFastest node)))
      ((request.relaxedLevel? (request.evaluateFastest node)).getD (node.fastest, 0)).2 := by
  generalize hspan : request.span (request.evaluateFastest node) = span at hdefined hfastest ⊢
  have hfits : ∀ level ∈ node.levels,
      request.fitsSpan span level = true ↔ level.execTime request.job.length ≤ span := by
    intro level hlevel
    rw [fitsSpan_iff, and_iff_left (hreliable level hlevel), h.execTime_eq hlevel,
      Exact.not_lt_iff (by simp) hdefined]
  -- Slower levels take longer, so those before the first that does not fit are all that fit.
  have hpairwise : (node.slower.zipIdx 1).Pairwise fun a b =>
      request.fitsSpan span b.1 = true → request.fitsSpan span a.1 = true := by
    have hslower := (List.pairwise_cons.1 (h.drafted.durations_pairwise h.listed h.nonneg)).2
    refine (pairwise_zipIdx hslower 1).imp_of_mem fun {a b} ha hb hle hfit => ?_
    have hfast := List.mem_cons_of_mem node.fastest (List.fst_mem_of_mem_zipIdx ha)
    have hslow := List.mem_cons_of_mem node.fastest (List.fst_mem_of_mem_zipIdx hb)
    rw [hfits _ hslow, h.execTime_eq hslow] at hfit
    rw [hfits _ hfast, h.execTime_eq hfast]
    exact Exact.le_trans (le_finite.2 hle) hfit
  have hchosen : request.relaxedLevel? (request.evaluateFastest node) =
      ((node.slower.zipIdx 1).filter fun choice => request.fitsSpan span choice.1).getLast? := by
    rw [← takeWhile_eq_filter hpairwise, ← hspan]
    rfl
  rw [hchosen]
  -- A level that keeps to the span is the fastest one or among those that are kept.
  have hmem : ∀ {level place}, (level, place) ∈ node.levels.zipIdx →
      level.execTime request.job.length ≤ span →
      place = 0 ∨ (level, place) ∈ (node.slower.zipIdx 1).filter fun choice =>
        request.fitsSpan span choice.1 := by
    intro level place hplace hle
    have hfit := (hfits level (List.fst_mem_of_mem_zipIdx hplace)).2 hle
    rw [levels_zipIdx] at hplace
    rcases List.mem_cons.1 hplace with heq | hslower
    · exact .inl (Prod.ext_iff.1 heq).2
    · exact .inr (List.mem_filter.2 ⟨hslower, hfit⟩)
  cases hlast : ((node.slower.zipIdx 1).filter fun choice =>
      request.fitsSpan span choice.1).getLast? with
  | none =>
      refine ⟨⟨node.fastest, List.mem_cons_self, ?_⟩, ?_⟩
      · rwa [h.execTime_eq List.mem_cons_self]
      · rintro place ⟨level, hplace, hle⟩
        rcases hmem hplace hle with rfl | hkept
        · exact le_rfl
        · rw [List.getLast?_eq_none_iff.1 hlast] at hkept
          cases hkept
  | some choice =>
      obtain ⟨level, place⟩ := choice
      obtain ⟨hslower, hfit⟩ := List.mem_filter.1 (List.mem_of_getLast? hlast)
      have hplace : (level, place) ∈ node.levels.zipIdx := by
        rw [levels_zipIdx]
        exact List.mem_cons_of_mem _ hslower
      refine ⟨⟨level, hplace, (hfits level (List.fst_mem_of_mem_zipIdx hplace)).1 hfit⟩, ?_⟩
      rintro other ⟨slow, hother, hle⟩
      rcases hmem hother hle with rfl | hkept
      · exact Nat.zero_le place
      · exact le_of_getLast?_filter hlast _ hkept

/-- If the share of the idle time is at most all of it and no level falls short of the sub-goal, the
level that is chosen is the slowest one that keeps to the time up to the latest finish, less the
share. -/
theorem relaxedLevel_slowest [IsStrictOrderedRing K] (h : request.Relaxes node x r)
    (hbeta : request.problem.beta = finite b) (hb : b ≤ 1)
    (hfeasible : request.feasible (request.evaluateFastest node) = true)
    (hreliable : ∀ level ∈ node.levels,
      ¬ level.reliability request.job.length < request.subGoal) :
    ∃ s f : K, (request.evaluateFastest node).start = finite s ∧
      (request.evaluateFastest node).finish = finite f ∧
      ((∃ l, request.latestFinish (request.evaluateFastest node) = finite l ∧
          IsGreatest (request.placesWithin node (finite (l - b * (l - f) - s)))
            ((request.relaxedLevel? (request.evaluateFastest node)).getD (node.fastest, 0)).2) ∨
        (request.latestFinish (request.evaluateFastest node) = infinity ∧
          IsGreatest (request.placesWithin node infinity)
            ((request.relaxedLevel? (request.evaluateFastest node)).getD (node.fastest, 0)).2)) := by
  obtain ⟨s, -, hstart, hfinish, hclear⟩ := h.exists_fastest
  refine ⟨s, _, hstart, hfinish, ?_⟩
  rcases h.latestFinish_cases hstart hfinish hclear hfeasible with ⟨l, hlatest, hle, -⟩ | ⟨hlatest, -⟩
  · have hspan := span_eq_of_finite hlatest hbeta hstart hfinish
    have hshare : b * (l - (s + node.fastest.duration x)) ≤ l - (s + node.fastest.duration x) :=
      mul_le_of_le_one_left (sub_nonneg.2 hle) hb
    refine .inl ⟨l, hlatest, ?_⟩
    rw [← hspan]
    refine h.relaxedLevel_isGreatest (by simp [hspan]) ?_ hreliable
    rw [hspan, le_finite]
    linarith
  · have hspan := span_eq_of_infinite hlatest
    refine .inr ⟨hlatest, ?_⟩
    rw [← hspan]
    refine h.relaxedLevel_isGreatest (by simp [hspan]) ?_ hreliable
    rw [hspan]
    trivial

end Relaxes

/-- A node that slows jobs down has a candidate just when its fastest level is feasible. The
candidate is feasible, too, starts at the same time and ends before the windows that begin later. If
the share `b` of the idle time is not negative, it is the one of the level that is chosen. If the
share is at most all of the idle time and no level falls short of the sub-goal, that is the slowest
level that keeps to the time up to the latest finish `l`, less the share, or the slowest level of all
where the finish is without limit. -/
theorem tryNode_relaxes [IsStrictOrderedRing K] {request : Request (Exact K)}
    {node : Node (Exact K)} {x r : K} (h : request.Relaxes node x r) :
    (request.tryNode node = none ↔ request.feasible (request.evaluateFastest node) = false) ∧
    (∀ found ∈ request.tryNode node, request.feasible found = true ∧
      found.start = (request.evaluateFastest node).start ∧
      ∀ next ∈ (request.timelines.ofNode node.id).nextStart? found.start, found.finish ≤ next) ∧
    ∀ b : K, request.problem.beta = finite b → 0 ≤ b → ∀ found ∈ request.tryNode node,
      found = request.evaluate node (request.readyTime node)
        ((request.relaxedLevel? (request.evaluateFastest node)).getD (node.fastest, 0)) ∧
      (b ≤ 1 → (∀ level ∈ node.levels, ¬ level.reliability request.job.length < request.subGoal) →
        ∃ s f : K, (request.evaluateFastest node).start = finite s ∧
          (request.evaluateFastest node).finish = finite f ∧
          ((∃ l, request.latestFinish (request.evaluateFastest node) = finite l ∧
              IsGreatest (request.placesWithin node (finite (l - b * (l - f) - s))) found.level) ∨
            (request.latestFinish (request.evaluateFastest node) = infinity ∧
              IsGreatest (request.placesWithin node infinity) found.level))) := by
  have hfound : ∀ found ∈ request.tryNode node,
      request.feasible (request.evaluateFastest node) = true ∧
        found = request.relax (request.readyTime node) (request.evaluateFastest node) := by
    intro found hfound
    rw [h.tryNode_eq, Option.mem_def] at hfound
    split at hfound
    · rename_i hfeasible
      exact ⟨hfeasible, (Option.some.inj hfound).symm⟩
    · cases hfound
  refine ⟨?_, ?_, ?_⟩
  · rw [h.tryNode_eq]
    split <;> simp_all
  · intro found hmem
    obtain ⟨hfeasible, rfl⟩ := hfound found hmem
    obtain ⟨choice, hchoice, heq, hkept, hstart⟩ := Relaxes.relax_eq_evaluate hfeasible
    rw [heq]
    exact ⟨hkept, hstart, h.finish_le_next hchoice⟩
  · intro b hbeta hb found hmem
    obtain ⟨hfeasible, rfl⟩ := hfound found hmem
    have heq := h.relax_eq hbeta hb hfeasible
    refine ⟨heq, fun hone hreliable => ?_⟩
    rw [heq]
    exact h.relaxedLevel_slowest hbeta hone hfeasible hreliable

end Request

/-!
## Three levels

A node with three levels that is busy up to 3 and again from 10 to 12, and a job that takes two, four
or eight seconds there.
-/

namespace ThreeLevels

/-- A function that agrees with the exponential at 0, which is all that is computed of it here. -/
scoped instance : Exponentials ℚ where
  exp x := 1 + x
  pow x _ := x

def site : Site (Exact ℚ) :=
  ⟨0, "mill", ⟨[finite 5], List.cons_ne_nil _ _⟩⟩

def node : Node (Exact ℚ) :=
  ⟨0, "wheel", site, ⟨finite 4, finite 9, finite 0⟩,
    [⟨finite 2, finite 4, finite 0⟩, ⟨finite 1, finite 2, finite 0⟩]⟩

def catalog : Catalog (Exact ℚ) where
  sites := [site]
  nodes := [node]
  network := ⟨infinity, infinity⟩
  nonempty := List.cons_ne_nil _ _

def job : Job (Exact ℚ) :=
  ⟨0, "grind", finite 8, 0, [], [], [], [], [], none⟩

/-- The job may start at 1 and has time up to 20. A quarter of the idle time is to be left. -/
def request : Request (Exact ℚ) where
  problem :=
    { catalog
      workflow := ⟨2, "mill", finite 1, none, none, [job]⟩
      metrics := ⟨⟨finite 4, [[finite 0]], [finite 0], [[]]⟩, [finite 2], [finite 2], [finite 0]⟩
      deadlines := ⟨finite 1, finite 2, finite 20, [finite 20]⟩
      budget := ⟨finite 1, finite 1, 1⟩
      profile := Variant.epee.profile
      beta := finite (1 / 4)
      maxSiteRetries := 0
      siteWorth := [finite 0] }
  timelines := ⟨[⟨[⟨finite 0, finite 3, ⟨1, 0⟩⟩, ⟨finite 10, finite 12, ⟨1, 1⟩⟩]⟩]⟩
  job
  arrivals := []
  begin := finite 1
  subDeadline := finite 20
  subGoal := finite 1

theorem catalog_drafted : catalog.Drafted := by
  refine ⟨_, ⟨infinity, infinity⟩, infinity, infinity, CatalogDraft.Drawn.empty.perform
    [.site "mill" [finite 5], .node "wheel" 0 [⟨finite 4, finite 9, finite 0⟩,
      ⟨finite 2, finite 4, finite 0⟩, ⟨finite 1, finite 2, finite 0⟩]], ?_, ?_⟩
  · with_unfolding_all rfl
  · with_unfolding_all rfl

theorem relaxes : request.Relaxes node 8 1 where
  drafted := catalog_drafted
  listed := List.mem_cons_self
  windows := by simp [request, node, Timelines.ofNode, IsFinite]
  length := rfl
  nonneg := by norm_num
  ready := by decide +kernel
  subDeadline := by decide
  subGoal := by decide
  search := rfl
  sorted := ⟨by simp [request, node, Timelines.ofNode, IsFinite],
    by norm_num [request, node, Timelines.ofNode]⟩
  forward := by norm_num [request, node, Timelines.ofNode, Timeline.Forward]

/-- Of the 5 seconds after the fastest level a quarter is left, so the second level is taken. -/
theorem second_level_found : request.Relaxes node 8 1 ∧ request.problem.beta = finite (1 / 4) ∧
    ∃ found ∈ request.tryNode node, request.feasible found = true ∧ found.start = finite 3 ∧
      found.finish = finite 7 ∧ found.level = 1 ∧
      IsGreatest (request.placesWithin node (finite (10 - 1 / 4 * (10 - 5) - 3))) found.level := by
  obtain ⟨-, hkept, hchosen⟩ := Request.tryNode_relaxes relaxes
  have hvalues : (request.tryNode node).map (fun found => (found.finish, found.level)) =
      some (finite 7, 1) := by decide +kernel
  obtain ⟨found, hfound, hvalue⟩ := Option.map_eq_some_iff.1 hvalues
  obtain ⟨hfinish, hlevel⟩ := Prod.ext_iff.1 hvalue
  obtain ⟨hfeasible, hstart, -⟩ := hkept found hfound
  have hfirst : (request.evaluateFastest node).start = finite 3 := by decide +kernel
  have hends : (request.evaluateFastest node).finish = finite 5 := by decide +kernel
  have hlatest : request.latestFinish (request.evaluateFastest node) = finite 10 := by
    decide +kernel
  obtain ⟨-, hslowest⟩ := hchosen (1 / 4) rfl (by norm_num) found hfound
  obtain ⟨s, f, hs, hf, ⟨l, hl, hgreatest⟩ | ⟨hl, -⟩⟩ :=
    hslowest (by norm_num) (by decide +kernel)
  · obtain rfl := Exact.finite.inj (hs.symm.trans hfirst)
    obtain rfl := Exact.finite.inj (hf.symm.trans hends)
    obtain rfl := Exact.finite.inj (hl.symm.trans hlatest)
    exact ⟨relaxes, rfl, found, hfound, hfeasible, hstart.trans hfirst, hfinish, hlevel, hgreatest⟩
  · cases hl.symm.trans hlatest

end ThreeLevels

end WattPlan
