import Mathlib.Data.Fintype.Order
import Mathlib.Data.List.Basic
import Mathlib.Order.WellFounded
import WattPlan.Proofs.Workflow.Edges

/-!
# Cycles of a draft

Jobs that the generations leave are left with one of their parents (`exists_stuck_dependsOn`), so
going up from one of them never comes to an end. A draft is therefore built just when no job depends
on itself, directly or through others (`build_iff_acyclic`).
-/

namespace WattPlan

/-- Going up within finitely many jobs, from each of them to another one, comes back somewhere. -/
theorem exists_transGen_self {r : JobId → JobId → Prop} {jobs : List JobId} (hne : jobs ≠ [])
    (h : ∀ job ∈ jobs, ∃ parent ∈ jobs, r parent job) :
    ∃ job ∈ jobs, Relation.TransGen r job job := by
  by_contra hacyclic
  push Not at hacyclic
  let above : {job // job ∈ jobs} → {job // job ∈ jobs} → Prop :=
    fun upper lower => Relation.TransGen r upper.1 lower.1
  have hirrefl : Std.Irrefl above := ⟨fun job => hacyclic job.1 job.2⟩
  have htrans : IsTrans _ above := ⟨fun _ _ _ => Relation.TransGen.trans⟩
  have hwf : WellFounded above := Finite.wellFounded_of_trans_of_irrefl above
  obtain ⟨first, hfirst⟩ := List.exists_mem_of_ne_nil jobs hne
  obtain ⟨least, -, hleast⟩ := hwf.has_min Set.univ ⟨⟨first, hfirst⟩, trivial⟩
  obtain ⟨parent, hparent, hrel⟩ := h least.1 least.2
  exact hleast ⟨parent, hparent⟩ trivial (.single hrel)

/-- Where every step raises a rank, nothing comes back to itself. -/
theorem not_transGen_self {r : JobId → JobId → Prop} (rank : JobId → Nat)
    (h : ∀ upper lower, r upper lower → rank upper < rank lower) (job : JobId) :
    ¬ Relation.TransGen r job job := by
  intro hcycle
  have hlt : Relation.TransGen (· < ·) (rank job) (rank job) :=
    Relation.TransGen.lift rank h _ _ hcycle
  rw [Relation.transGen_eq_self] at hlt
  exact hlt.false

namespace WorkflowDraft

variable {α : Type} {draft : WorkflowDraft α}

/-- A job of a draft depends on another one. -/
def DependsOn (draft : WorkflowDraft α) (parent child : JobId) : Prop :=
  child ∈ draft.jobIds ∧ parent ∈ draft.parentsOf child

/-- In a drawn draft one job depends on another one just when there is such a dependency. -/
theorem Drawn.dependsOn_eq [Scalar α] (h : draft.Drawn) :
    draft.DependsOn = Leads draft.edges := by
  funext parent child
  rw [DependsOn, Leads, h.mem_parentsOf_iff, eq_iff_iff, and_iff_right_of_imp]
  exact fun hedge => List.mem_range.2 (h.edge_lt _ hedge).2

/-- A stuck job of a draft depends on a stuck job. -/
theorem exists_stuck_dependsOn {layers : List (List JobId)} {stuck : List JobId}
    (h : Generates draft.parentsOf [] draft.jobIds layers stuck) :
    ∀ job ∈ stuck, ∃ parent ∈ stuck, draft.DependsOn parent job := by
  intro job hjob
  obtain ⟨parent, hparent, hleft⟩ := h.exists_stuck_parent
    (fun job _ parent hparent => .inr (List.mem_of_mem_filter hparent)) hjob
  exact ⟨parent, hleft, h.stuck_sublist.subset hjob, hparent⟩

/-- A draft is built just when no job depends on itself, directly or through others. -/
theorem build_iff_acyclic : (∃ workflow, draft.build = .ok workflow) ↔
    ∀ job, ¬ Relation.TransGen draft.DependsOn job job := by
  constructor
  · rintro ⟨workflow, hbuild⟩ job hcycle
    obtain ⟨layers, hlayers, -, -⟩ := build_eq_ok hbuild
    -- A dependency leads from a generation to a later one.
    refine not_transGen_self (fun id => layers.findIdx fun layer => layer.contains id) ?_ job hcycle
    rintro upper lower ⟨hlower, hupper⟩
    exact (hlayers.findIdx_lt hlower List.not_mem_nil hupper).resolve_left List.not_mem_nil
  · intro hacyclic
    cases hgenerations : generations draft.parentsOf [] draft.jobIds with
    | mk layers stuck =>
        have hgenerates := generates_iff.2 hgenerations
        have hnone : stuck = [] := by
          by_contra hne
          obtain ⟨job, -, hcycle⟩ := exists_transGen_self hne (exists_stuck_dependsOn hgenerates)
          exact hacyclic job hcycle
        subst hnone
        exact build_of_generates hgenerates

end WorkflowDraft

end WattPlan
