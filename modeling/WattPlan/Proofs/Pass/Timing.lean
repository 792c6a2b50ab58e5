import WattPlan.Proofs.Durations
import WattPlan.Proofs.Gaps
import WattPlan.Proofs.Pass.Reached

/-!
# Exact times in a pass

Over exact quantities every time that a pass computes is finite. `Problem.Timed` collects what this
rests on. The candidates that a request offers then begin when all inputs are there and keep clear
of the windows on their node (`Asks.times_of_offers`), so a pass that is reached from sound
timelines has sound timelines (`Reached.timed`).
-/

namespace WattPlan

open Exact

variable {K : Type} [Field K] [LinearOrder K] [FloorRing K] [Exponentials K]

/-- What the times of a pass rest on: a drafted catalog, an arranged and measured workflow with a
finite submission, and the metrics of that workflow. -/
structure Problem.Timed (problem : Problem (Exact K)) : Prop where
  catalog : problem.catalog.Drafted
  arranged : problem.workflow.Arranged
  measured : problem.workflow.Measured
  metrics : problem.metrics.Fits problem.workflow problem.catalog
  submitted : problem.workflow.submittedAt.IsFinite

namespace Pass

variable {problem : Problem (Exact K)} {pass : Pass (Exact K)} {timelines : Timelines (Exact K)}
  {job : Job (Exact K)} {request : Request (Exact K)} {candidate : Candidate (Exact K)}

/-- The times of a pass are in order: its timelines are sound, and every placement begins when all
inputs are there and finishes at a finite time. -/
structure Timed (pass : Pass (Exact K)) : Prop where
  sound : ∀ node, (pass.timelines.ofNode node).Sound
  finishes : ∀ placement ∈ pass.placed, placement.finish.IsFinite
  begins : ∀ placement ∈ pass.placed, placement.ready ≤ placement.start

/-- An arrival is that of the placement of the parent. -/
theorem arrivalFrom_eq_ok {α : Type} [Scalar α] {pass : Pass α} {workflow : Workflow α}
    {job : Job α} {parent : JobId} {arrival : Arrival α}
    (h : pass.arrivalFrom workflow job parent = .ok arrival) :
    ∃ placement writer, pass.placement? parent = some placement ∧
      workflow.job? parent = some writer ∧
      arrival = ⟨placement.finish, placement.node, job.dataFrom writer⟩ := by
  unfold arrivalFrom at h
  split at h
  · rename_i placement writer hplacement hwriter
    exact ⟨placement, writer, hplacement, hwriter, (Except.ok.inj h).symm⟩
  · cases h

/-- The staging time that a request looks up is that of its job on the catalog. -/
theorem Asks.stagingTime_eq (hasks : pass.Asks problem job request) (htimed : problem.Timed)
    (hjob : job ∈ problem.workflow.jobs) {node : Node (Exact K)}
    (hnode : node ∈ problem.catalog.nodes) :
    request.stagingTime node = problem.catalog.stagingTime job node := by
  rw [Request.stagingTime, hasks.problem_eq, hasks.job_eq]
  exact htimed.metrics.stagingTime_eq (htimed.arranged.job?_id hjob) (htimed.catalog.node?_id hnode)

/-- All inputs of a job are on a node at a finite time: the latest of the submission and the
arrivals of what the parents give, each with the time of staging after it. -/
theorem Asks.readyTime_finite [IsStrictOrderedRing K] (hasks : pass.Asks problem job request)
    (htimed : problem.Timed)
    (hfinishes : ∀ placement ∈ pass.placed, placement.finish.IsFinite)
    (hjob : job ∈ problem.workflow.jobs) {node : Node (Exact K)}
    (hnode : node ∈ problem.catalog.nodes) :
    ∃ r, request.readyTime node = finite r ∧
      problem.workflow.submittedAt + problem.catalog.stagingTime job node ≤ finite r ∧
      (∀ arrival ∈ request.arrivals, arrival.finish +
        problem.catalog.transferTime arrival.data arrival.node node +
          problem.catalog.stagingTime job node ≤ finite r) ∧
      (finite r = problem.workflow.submittedAt + problem.catalog.stagingTime job node ∨
        ∃ arrival ∈ request.arrivals, finite r = arrival.finish +
          problem.catalog.transferTime arrival.data arrival.node node +
            problem.catalog.stagingTime job node) := by
  have harrived : ∀ arrival ∈ request.arrivals, ∃ t, arrival.finish +
      problem.catalog.transferTime arrival.data arrival.node node = finite t := by
    intro arrival harrival
    obtain ⟨parent, -, hparent⟩ := forall₂_exists_left hasks.arrivals_from harrival
    obtain ⟨placement, writer, hplacement, -, rfl⟩ := arrivalFrom_eq_ok hparent
    obtain ⟨f, hf⟩ := hfinishes placement (placement?_eq_some hplacement).1
    have hdata : (job.dataFrom writer).IsFinite := htimed.measured.dataFrom_finite hjob
    obtain ⟨t, ht⟩ := htimed.catalog.transferTime_finite hdata placement.node node
    exact ⟨f + t, by rw [hf, ht, add_finite]⟩
  obtain ⟨x, hx⟩ := htimed.submitted
  obtain ⟨staging, hstaging⟩ := htimed.catalog.stagingTime_finite htimed.measured hjob node
  obtain ⟨y, hmax, hle, hall, hreach⟩ := maxFrom_finite (request.arrivals.map fun arrival =>
    arrival.finish + problem.catalog.transferTime arrival.data arrival.node node) (by
      intro time htime
      obtain ⟨arrival, harrival, rfl⟩ := List.mem_map.1 htime
      exact harrived arrival harrival) x
  refine ⟨y + staging, ?_, ?_, fun arrival harrival => ?_, ?_⟩
  · unfold Request.readyTime Request.transferTime
    dsimp only
    rw [hasks.stagingTime_eq htimed hjob hnode, hasks.problem_eq, hx, hmax, hstaging, add_finite]
  · rw [hx, hstaging, add_finite, le_finite]
    exact add_le_add_left hle staging
  · have hbound := hall _ (List.mem_map_of_mem harrival)
    obtain ⟨t, ht⟩ := harrived arrival harrival
    rw [ht, le_finite] at hbound
    rw [ht, hstaging, add_finite, le_finite]
    exact add_le_add_left hbound staging
  · rw [hstaging]
    rcases hreach with rfl | hreach
    · exact .inl (by rw [hx, add_finite])
    · obtain ⟨arrival, harrival, harrives⟩ := List.mem_map.1 hreach
      exact .inr ⟨arrival, harrival, by rw [harrives, add_finite]⟩

/-- An offered candidate begins when all inputs are there, takes an amount of time, and keeps clear
of the windows on its node. -/
theorem Asks.times_of_offers [IsStrictOrderedRing K] (hasks : pass.Asks problem job request)
    (htimelines : request.timelines = pass.timelines) (htimed : problem.Timed) (hpass : pass.Timed)
    (hjob : job ∈ problem.workflow.jobs) (hoffers : request.Offers candidate) :
    ∃ r s d, candidate.ready = finite r ∧ candidate.start = finite s ∧
      candidate.finish = finite (s + d) ∧ r ≤ s ∧ 0 ≤ s ∧ 0 ≤ d ∧
      ∀ window ∈ (pass.timelines.ofNode candidate.node.id).windows,
        window.finish ≤ candidate.start ∨ candidate.finish ≤ window.start := by
  obtain ⟨node, hnode, level, hlevel, place, rfl⟩ := hasks.exists_evaluate hoffers
  obtain ⟨r, hready, -⟩ := hasks.readyTime_finite htimed hpass.finishes hjob hnode
  obtain ⟨d, hduration, hd⟩ := htimed.catalog.execTime_amount htimed.measured hjob hnode hlevel
  obtain ⟨s, hprobe, hs, hrs, hclear⟩ := (hpass.sound node.id).toSorted.probe_clear d r
  refine ⟨r, s, d, hready, ?_⟩
  simp only [Request.evaluate, hasks.job_eq, hduration, hready, htimelines, hprobe, add_finite]
  exact ⟨trivial, trivial, hrs, hs, hd, hclear⟩

/-- Placing an offered candidate keeps the times of a pass in order. -/
theorem Timed.extend [IsStrictOrderedRing K] (hpass : pass.Timed) (htimed : problem.Timed)
    (hjob : job ∈ problem.workflow.jobs) (hrequest : pass.request problem job = .ok request)
    (hoffers : request.Offers candidate) :
    (pass.extend problem.workflow.id ⟨candidate, job.id⟩).Timed := by
  obtain ⟨hasks, htimelines⟩ := asks_of_request hrequest
  obtain ⟨r, s, d, hready, hstart, hfinish, hrs, hs, hd, hclear⟩ :=
    hasks.times_of_offers htimelines htimed hpass hjob hoffers
  constructor
  case sound =>
    intro node
    have hold := hpass.sound node
    by_cases heq : candidate.node.id = node
    · subst heq
      by_cases hlt : candidate.node.id < pass.timelines.nodes.length
      · show ((pass.timelines.insert _ _).ofNode _).Sound
        rw [Timelines.ofNode_insert_self hlt]
        exact hold.insert ⟨hstart, hfinish, hs, le_add_of_nonneg_right hd⟩ hclear
      · -- Without a timeline for the node nothing is inserted.
        show ((pass.timelines.insert _ _).ofNode _).Sound
        rw [Timelines.insert, List.set_eq_of_length_le (not_lt.1 hlt)]
        exact hold
    · show ((pass.timelines.insert _ _).ofNode _).Sound
      rw [Timelines.ofNode_insert_of_ne heq]
      exact hold
  case finishes =>
    intro placement hplacement
    rcases List.mem_append.1 hplacement with hplacement | hplacement
    · exact hpass.finishes placement hplacement
    · rw [List.mem_singleton.1 hplacement]
      exact ⟨s + d, hfinish⟩
  case begins =>
    intro placement hplacement
    rcases List.mem_append.1 hplacement with hplacement | hplacement
    · exact hpass.begins placement hplacement
    · rw [List.mem_singleton.1 hplacement, hready, hstart]
      exact hrs

/-- A pass that is reached from sound timelines has its times in order. -/
theorem Reached.timed [IsStrictOrderedRing K] (h : Reached problem timelines pass)
    (htimed : problem.Timed) (hsound : ∀ node, (timelines.ofNode node).Sound) : pass.Timed :=
  h.preserves ⟨hsound, by simp [Pass.start], by simp [Pass.start]⟩
    fun _ ih hjob _ hrequest hoffers => ih.extend htimed hjob hrequest hoffers

end Pass

end WattPlan
