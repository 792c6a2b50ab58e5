import WattPlan.Proofs.Pass.Reached

/-!
# The turns of the jobs in a pass

`Turn` is one turn of a job: the request that is made for it and the generator from which a
candidate is searched. `Pass.Takes` lists the turns that lead from given timelines and a generator
to a pass and the generator after it. Every such pass is reached (`Takes.reached`), and its
placements are what the searches came to (`Takes.placed_eq`). The turns are determined by the order
of the placements: `Pass.turns` takes them again (`Takes.turns_eq`).
-/

namespace WattPlan

/-- The turn of a job in a pass: the request that is made for it, and the generator from which its
candidate is searched. -/
structure Turn (α : Type) where
  job : Job α
  request : Request α
  generator : Generator

variable {α : Type} [Scalar α]

namespace Turn

/-- What the search comes to: a candidate, and the generator for the next turn. -/
def result (turn : Turn α) : Candidate α × Generator :=
  turn.request.search.run turn.generator

/-- The placement that the turn makes. -/
def placement (turn : Turn α) : Placement α :=
  ⟨turn.result.1, turn.job.id⟩

/-- The sites give a feasible candidate, so the job need not run on a node by chance. -/
def finds (turn : Turn α) : Bool :=
  (turn.request.feasibleCandidate.run turn.generator).1.isSome

/-- The search comes to its candidate from every generator, and leaves the generator as it was. -/
def Settles (turn : Turn α) : Prop :=
  ∀ generator, turn.request.search.run generator = (turn.result.1, generator)

/-- The search of a turn comes to an offered candidate. -/
theorem offers (turn : Turn α) : turn.request.Offers turn.result.1 :=
  turn.request.search_yields_offers turn.generator

end Turn

namespace Pass

/-- The turns of jobs that are placed one after another, from a pass and a generator on. -/
def turns (problem : Problem α) : List JobId → Pass α → Generator → List (Turn α)
  | [], _, _ => []
  | id :: rest, pass, generator =>
      match problem.workflow.job? id with
      | none => []
      | some job =>
          match pass.request problem job with
          | .error _ => []
          | .ok request =>
              let turn : Turn α := ⟨job, request, generator⟩
              turn :: turns problem rest (pass.commit problem job turn.result.1) turn.result.2

/-- The turns of due jobs that lead from given timelines and a generator to a pass and another
generator. -/
inductive Takes (problem : Problem α) (timelines : Timelines α) (generator : Generator) :
    List (Turn α) → Pass α → Generator → Prop where
  | start : Takes problem timelines generator [] (start timelines) generator
  | place (turns : List (Turn α)) (pass : Pass α) (turn : Turn α) :
      Takes problem timelines generator turns pass turn.generator →
      turn.job ∈ problem.workflow.jobs → pass.isDue turn.job = true →
      pass.request problem turn.job = .ok turn.request →
      Takes problem timelines generator (turns ++ [turn])
        (pass.commit problem turn.job turn.result.1) turn.result.2

variable {problem : Problem α} {timelines : Timelines α} {turns : List (Turn α)} {pass : Pass α}
  {generator following : Generator}

omit [Scalar α] in
/-- The jobs of a pass with one more placement. -/
theorem commitOrder_snoc {timelines : Timelines α} {placement : Placement α} :
    commitOrder ⟨timelines, pass.placed ++ [placement]⟩ = pass.commitOrder ++ [placement.job] := by
  simp [commitOrder]

namespace Takes

/-- A pass that turns lead to is reached. -/
theorem reached (h : Takes problem timelines generator turns pass following) :
    Reached problem timelines pass := by
  induction h with
  | start => exact .start
  | place turns pass turn _ hjob hdue hrequest ih =>
      exact .place _ _ _ _ ih hjob hdue hrequest turn.offers

/-- The request of a turn is one that a pass makes for a job of the workflow. -/
theorem exists_request (h : Takes problem timelines generator turns pass following) :
    ∀ turn ∈ turns, turn.job ∈ problem.workflow.jobs ∧
      ∃ earlier : Pass α, earlier.request problem turn.job = .ok turn.request := by
  induction h with
  | start => simp
  | place turns pass turn _ hjob _ hrequest ih =>
      intro other hother
      rcases List.mem_append.1 hother with hother | hother
      · exact ih other hother
      · rw [List.mem_singleton.1 hother]
        exact ⟨hjob, pass, hrequest⟩

/-- The placements of a pass are those of its turns. -/
theorem placed_eq (h : Takes problem timelines generator turns pass following) :
    pass.placed = turns.map Turn.placement := by
  induction h with
  | start => rfl
  | place turns pass turn _ _ _ hrequest ih =>
      rw [commit_eq_extend hrequest turn.offers, List.map_append, ← ih]
      rfl

/-- Taking the turns of the placed jobs again, and those of further jobs after them, gives the same
turns. -/
theorem turns_append (h : Takes problem timelines generator turns pass following)
    (harranged : problem.workflow.Arranged) (rest : List JobId) :
    Pass.turns problem (pass.commitOrder ++ rest) (Pass.start timelines) generator =
      turns ++ Pass.turns problem rest pass following := by
  induction h generalizing rest with
  | start => rfl
  | place turns pass turn _ hjob _ hrequest ih =>
      rw [commit_eq_extend hrequest turn.offers]
      show Pass.turns problem (commitOrder ⟨_, pass.placed ++ [turn.placement]⟩ ++ rest) _ _ = _
      rw [commitOrder_snoc, List.append_assoc, List.append_assoc, ih]
      -- The next turn is that of the job that was placed.
      show turns ++ Pass.turns problem (turn.job.id :: rest) pass turn.generator = _
      simp only [Pass.turns, harranged.job?_id hjob, hrequest, List.singleton_append]
      rw [commit_eq_extend hrequest turn.offers]

/-- The turns of the placed jobs are determined by their order. -/
theorem turns_eq (h : Takes problem timelines generator turns pass following)
    (harranged : problem.workflow.Arranged) :
    Pass.turns problem pass.commitOrder (Pass.start timelines) generator = turns := by
  have hturns := h.turns_append harranged []
  rwa [List.append_nil, Pass.turns, List.append_nil] at hturns

end Takes

end Pass

end WattPlan
