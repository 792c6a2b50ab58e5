import WattPlan.Proofs.Planner.Calls

/-!
# Failed calls

A call that returns no plan leaves the planner as it was, except for the generator, and the workflow
as it was, except for the deadline. A workflow with jobs is found infeasible just when no attempt of
the search met the deadline and the reliability goal. `plan_failure` states both.
-/

namespace WattPlan

variable {α : Type} [Scalar α]

/-- A fault says that a workflow has no jobs. -/
def PlanFault.IsEmpty {α : Type} (fault : PlanFault α) : Prop :=
  ∃ workflow, fault = .emptyWorkflow workflow

/-- A fault says that nothing feasible was found for a workflow. -/
def PlanFault.IsInfeasible {α : Type} (fault : PlanFault α) : Prop :=
  ∃ id workflow slackFactor reliabilityGoal deadline,
    fault = .infeasible id workflow slackFactor reliabilityGoal deadline

/-- No fault says both. -/
theorem PlanFault.IsEmpty.not_isInfeasible {α : Type} {fault : PlanFault α} (h : fault.IsEmpty) :
    ¬ fault.IsInfeasible := by
  obtain ⟨_, rfl⟩ := h
  rintro ⟨_, _, _, _, _, hinfeasible⟩
  cases hinfeasible

namespace Planner

/-- The fault of a workflow for which nothing feasible is found says so. -/
theorem infeasibleFault_isInfeasible (planner : Planner α) (workflow : Workflow α)
    (metrics : Metrics α) : (planner.infeasibleFault workflow metrics).IsInfeasible :=
  ⟨_, _, _, _, _, rfl⟩

/-- A failed call changes at most the generator of the planner and the deadline of the workflow. -/
theorem plan_error_frame {planner : Planner α} {workflow : Workflow α} {fault : PlanFault α}
    (h : (planner.plan workflow).result = .error fault) :
    (∃ generator, (planner.plan workflow).planner = { planner with generator }) ∧
      ∃ deadline, (planner.plan workflow).workflow = { workflow with deadline } := by
  have hplan := planner.plan_answers workflow
  generalize planner.plan workflow = outcome at h hplan
  cases hplan with
  | empty | unmeasured => exact ⟨⟨planner.generator, rfl⟩, workflow.deadline, rfl⟩
  | aborted metrics _ generator | infeasible metrics _ generator =>
      exact ⟨⟨generator, rfl⟩, some (planner.deadlinesOf workflow metrics).deadline, rfl⟩
  | committed => cases h

/-- A call that fails changes nothing but the generator and the deadline, whatever the workflow: the
planner keeps its timelines, its totals and its committed jobs, and the workflow its jobs. The
deadline of a drafted workflow stays if it has no jobs and is the computed one if it is infeasible.
With jobs it is infeasible just when none of the passes that the search ran finished by the deadline
and reached the reliability goal. -/
theorem plan_failure (planner : Planner α) (workflow : Workflow α) :
    (∀ fault, (planner.plan workflow).result = .error fault →
      (∃ generator, (planner.plan workflow).planner = { planner with generator }) ∧
      ∃ deadline, (planner.plan workflow).workflow = { workflow with deadline }) ∧
    (workflow.Drafted →
      (∀ fault, (planner.plan workflow).result = .error fault →
        (fault.IsEmpty → (planner.plan workflow).workflow = workflow) ∧
        (fault.IsInfeasible → ∃ metrics, planner.metricsOf workflow = .ok metrics ∧
          (planner.plan workflow).workflow.deadline =
            some (planner.deadlinesOf workflow metrics).deadline)) ∧
      (workflow.jobs ≠ [] → ∃ metrics attempts, planner.metricsOf workflow = .ok metrics ∧
        (planner.searchOf workflow metrics).Attempts planner.generator attempts ∧ attempts ≠ [] ∧
        ((∃ fault, (planner.plan workflow).result = .error fault ∧ fault.IsInfeasible) ↔
          ∀ attempt ∈ attempts,
            ¬ (attempt.solution.finishTime ≤ (planner.deadlinesOf workflow metrics).deadline ∧
              planner.goalOf workflow metrics ≤ attempt.solution.reliability)))) := by
  refine ⟨fun fault hfault => plan_error_frame hfault, fun hworkflow => ?_⟩
  by_cases hne : workflow.jobs = []
  · have hplan := planner.plan_of_jobs_eq_nil hne
    refine ⟨fun fault hfault => ⟨fun _ => by rw [hplan], fun hinfeasible => ?_⟩,
      fun hjobs => absurd hne hjobs⟩
    rw [hplan] at hfault
    cases hfault
    exact absurd hinfeasible (PlanFault.IsEmpty.not_isInfeasible ⟨_, rfl⟩)
  · obtain ⟨metrics, attempts, generator, hmetrics, -, hattempts, -, hfail | hcommit⟩ :=
      plan_of_arranged hworkflow.arranged hne planner
    · have hnonempty : attempts ≠ [] := hattempts.choose_spec.ne_nil
      obtain ⟨hplan, hmiss⟩ := hfail
      have hinfeasible := planner.infeasibleFault_isInfeasible workflow metrics
      have hdated : (planner.plan workflow).workflow.deadline =
          some (planner.deadlinesOf workflow metrics).deadline := by
        rw [hplan]
        rfl
      refine ⟨fun fault hfault => ⟨fun hempty => ?_, fun _ => ⟨metrics, hmetrics, hdated⟩⟩,
        fun _ => ⟨metrics, attempts, hmetrics, hattempts, hnonempty, fun _ => hmiss,
          fun _ => ⟨_, by rw [hplan], hinfeasible⟩⟩⟩
      rw [hplan] at hfault
      cases hfault
      exact absurd hinfeasible hempty.not_isInfeasible
    · have hnonempty : attempts ≠ [] := hattempts.choose_spec.ne_nil
      obtain ⟨attempt, hattempt, hmeets, progress, hplan⟩ := hcommit
      have hok : ∀ fault, (planner.plan workflow).result ≠ .error fault := by
        intro fault hfault
        rw [hplan] at hfault
        cases hfault
      refine ⟨fun fault hfault => absurd hfault (hok fault), fun _ =>
        ⟨metrics, attempts, hmetrics, hattempts, hnonempty, ?_, fun hmiss => ?_⟩⟩
      · rintro ⟨fault, hfault, -⟩
        exact absurd hfault (hok fault)
      · exact absurd hmeets (hmiss attempt hattempt)

end Planner

namespace Chain

/-- Nothing reaches the goal 4, so the chain is refused, and the planner is as before. -/
theorem refuses_chain : (workflow 4).Drafted ∧
    (∃ generator, (planner.plan (workflow 4)).planner = { planner with generator }) ∧
    (∃ deadline, (planner.plan (workflow 4)).workflow = { workflow 4 with deadline }) ∧
    ∃ fault, (planner.plan (workflow 4)).result = .error fault ∧ fault.IsInfeasible := by
  obtain ⟨hframe, hdrafted⟩ := Planner.plan_failure planner (workflow 4)
  obtain ⟨-, hjobs⟩ := hdrafted (workflow_drafted 4)
  obtain ⟨metrics, attempts, hmetrics, hattempts, -, hinfeasible⟩ := hjobs (by simp [workflow])
  obtain ⟨fault, hfault, hkind⟩ := hinfeasible.2 fun attempt hattempt hmeets =>
    absurd ((meets_iff (by simp) hmetrics hattempts hattempt).1 hmeets) (by decide)
  obtain ⟨hplanner, hworkflow⟩ := hframe fault hfault
  exact ⟨workflow_drafted 4, hplanner, hworkflow, fault, hfault, hkind⟩

end Chain

end WattPlan
