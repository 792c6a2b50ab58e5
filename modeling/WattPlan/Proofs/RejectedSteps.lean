import WattPlan.Proofs.Binary64.Means
import WattPlan.Proofs.Catalog.Divisors
import WattPlan.Proofs.Catalog.Edits
import WattPlan.Proofs.Catalog.Levels
import WattPlan.Proofs.Workflow.Edits

/-!
# Steps that are rejected

Catalogs and workflows are edited step by step, and a step may be rejected. A rejected step leaves no
trace: what is built in the end is what the accepted steps alone would have built, and they are
accepted without the others, too (`rejected_steps_leave_no_trace`). What accepted steps build is
well-formed.
-/

namespace WattPlan

/-- The outcomes of the steps of a catalog from an empty draft on, and the draft after them. -/
def CatalogDraft.made {α : Type} [Scalar α] (steps : List (CatalogDraft.Step α)) :
    List (Except (ModelFault α) Nat) × CatalogDraft α :=
  Edit.perform CatalogDraft.edit CatalogDraft.empty steps

/-- The outcomes of the steps of a workflow from an empty editor on, and the editor after them. -/
def WorkflowEditor.made {α : Type} [Scalar α] (id : WorkflowId) (name : String) (submittedAt : α)
    (goal : Option α) (steps : List (WorkflowDraft.Step α)) :
    List (Except (ModelFault α) (Option JobId)) × WorkflowEditor α :=
  Edit.perform WorkflowEditor.edit (WorkflowEditor.empty id name submittedAt goal) steps

variable {α : Type} [Scalar α]

/-- What steps lead to, whether or not each is accepted, is drawn by accepted ones. -/
theorem CatalogDraft.made_drawn (steps : List (CatalogDraft.Step α)) :
    (CatalogDraft.made steps).2.Drawn := by
  rw [made, perform_edit]
  exact Drawn.empty.perform steps

/-- Without the rejected steps of a catalog the same draft is made. -/
theorem CatalogDraft.made_accepted (steps : List (CatalogDraft.Step α)) :
    CatalogDraft.made (accepted steps (CatalogDraft.made steps).1) =
      ((CatalogDraft.made steps).1.filter fun outcome => outcome.isOk,
        (CatalogDraft.made steps).2) :=
  Edit.perform_accepted CatalogDraft.edit_atomic CatalogDraft.empty steps

/-- Without the rejected steps of a workflow the same draft is made, with the same register. -/
theorem WorkflowEditor.made_accepted (id : WorkflowId) (name : String) (submittedAt : α)
    (goal : Option α) (steps : List (WorkflowDraft.Step α)) :
    WorkflowEditor.made id name submittedAt goal
        (accepted steps (WorkflowEditor.made id name submittedAt goal steps).1) =
      ((WorkflowEditor.made id name submittedAt goal steps).1.filter fun outcome => outcome.isOk,
        (WorkflowEditor.made id name submittedAt goal steps).2) :=
  Edit.perform_accepted WorkflowEditor.edit_atomic _ steps

/-- Whatever steps are made, and whichever of them are rejected, the accepted ones alone build the
same catalog or workflow, or fail to build one with the same fault, and are all accepted with the
same results. The register of a workflow tells the numbers of its jobs. A catalog that is built is
well-formed, and all that is divided by is above zero, for exact quantities and for floats with any
number of nodes that a float can count. -/
theorem rejected_steps_leave_no_trace :
    (∀ (steps : List (CatalogDraft.Step α)) (network : Network α),
      (CatalogDraft.made (accepted steps (CatalogDraft.made steps).1)).2.build network =
          (CatalogDraft.made steps).2.build network ∧
        (CatalogDraft.made (accepted steps (CatalogDraft.made steps).1)).1 =
          (CatalogDraft.made steps).1.filter (fun outcome => outcome.isOk) ∧
        ∀ catalog, (CatalogDraft.made steps).2.build network = .ok catalog → catalog.WellFormed) ∧
    (∀ (id : WorkflowId) (name : String) (submittedAt : α) (goal : Option α)
      (steps : List (WorkflowDraft.Step α)),
      let made := WorkflowEditor.made id name submittedAt goal
      (made (accepted steps (made steps).1)).2.build = (made steps).2.build ∧
        (made (accepted steps (made steps).1)).1 =
          (made steps).1.filter (fun outcome => outcome.isOk) ∧
        (made steps).2.Registered) ∧
    (∀ (K : Type) [Field K] [LinearOrder K] [IsStrictOrderedRing K] [FloorRing K] [Exponentials K]
      (steps : List (CatalogDraft.Step (Exact K))) (network : Network (Exact K)) (catalog),
      (CatalogDraft.made steps).2.build network = .ok catalog → catalog.Divisible ∧
        ∀ node ∈ catalog.nodes, node.levels.Pairwise fun faster slower =>
          slower.speed ≤ faster.speed) ∧
    ∀ (steps : List (CatalogDraft.Step Float)) (network : Network Float) (catalog),
      (CatalogDraft.made steps).2.build network = .ok catalog →
        catalog.nodes.length ≤ 2 ^ 52 → catalog.Divisible := by
  refine ⟨fun steps network => ?_, fun id name submittedAt goal steps => ?_, ?_, ?_⟩
  · rw [CatalogDraft.made_accepted]
    exact ⟨rfl, rfl, fun catalog hbuild => (CatalogDraft.made_drawn steps).wellFormed hbuild⟩
  · intro made
    rw [show made (accepted steps (made steps).1) = _ from
      WorkflowEditor.made_accepted id name submittedAt goal steps]
    exact ⟨rfl, rfl, ((WorkflowEditor.Registered.empty id name submittedAt goal).perform steps).2.2⟩
  · intro K _ _ _ _ _ steps network catalog hbuild
    have hformed := (CatalogDraft.made_drawn steps).wellFormed hbuild
    refine ⟨hformed.divisible (Exact.keepsPositive _), fun node hnode => ?_⟩
    have harranged := (CatalogDraft.made_drawn steps).arranged
    rw [(CatalogDraft.build_eq_ok hbuild).2] at hnode
    exact PowerLevel.pairwise_of_descending (harranged.descending hnode) (harranged.level hnode)
  · intro steps network catalog hbuild hfew
    exact ((CatalogDraft.made_drawn steps).wellFormed hbuild).divisible
      (Binary64.keepsPositive hfew)

/-!
## Names that were refused once

The kiln and the mixing job are refused at first, for numbers that break a rule, and are accepted
later under the same names. The steps that are refused in between would number sites, nodes or jobs
differently if they left anything.
-/

namespace SecondTries

open Exact Exact.WithoutExponentials

def sites : List (CatalogDraft.Step (Exact ℚ)) :=
  [.node "kiln" 0 [⟨finite 7, finite 40, finite 0⟩], .site "yard" [], .site "hall" [finite 9],
    .node "kiln" 0 [⟨finite 0, finite 40, finite 0⟩],
    .node "oven" 0 [⟨finite 6, finite 50, finite 0⟩, ⟨finite 2, finite 20, finite 0⟩],
    .node "oven" 0 [⟨finite 6, finite 50, finite 0⟩],
    .node "kiln" 0 [⟨finite 7, finite 40, finite 0⟩, ⟨finite 8, finite 45, finite 0⟩],
    .node "kiln" 0 [⟨finite 7, finite 40, finite 0⟩]]

def jobs : List (WorkflowDraft.Step (Exact ℚ)) :=
  [.job "mix" (finite (-5)), .job "mix" (finite 5), .job "mix" (finite 6), .dependency 0 1,
    .job "bake" (finite 9), .dependency 0 1, .output 0 ⟨"dough", finite (-8), none⟩,
    .output 0 ⟨"dough", finite 8, none⟩, .input 2 ⟨"dough", finite 8, none⟩,
    .input 1 ⟨"dough", finite 8, none⟩]

def network : Network (Exact ℚ) :=
  ⟨finite 12, finite 3⟩

/-- Three of eight steps make the same catalog as all of them, with a mean top speed of 13 / 2, and
five of ten the same workflow. -/
theorem second_tries_count :
    (accepted sites (CatalogDraft.made sites).1).length = 3 ∧
    (CatalogDraft.made (accepted sites (CatalogDraft.made sites).1)).2.build network =
      (CatalogDraft.made sites).2.build network ∧
    (∃ catalog, (CatalogDraft.made sites).2.build network = .ok catalog ∧ catalog.WellFormed ∧
      catalog.Divisible ∧ catalog.meanTopSpeed = finite (13 / 2) ∧
      catalog.nodes.map (fun node => (node.id, node.name, node.site.id)) =
        [(0, "oven", 0), (1, "kiln", 0)]) ∧
    (accepted jobs (WorkflowEditor.made 8 "bread" (finite 0) none jobs).1).length = 5 ∧
    (WorkflowEditor.made 8 "bread" (finite 0) none
        (accepted jobs (WorkflowEditor.made 8 "bread" (finite 0) none jobs).1)).2.build =
      (WorkflowEditor.made 8 "bread" (finite 0) none jobs).2.build ∧
    (WorkflowEditor.made 8 "bread" (finite 0) none jobs).2.jobNamed? "bake" = some 1 := by
  obtain ⟨hcatalogs, hworkflows, hexact, -⟩ := rejected_steps_leave_no_trace (α := Exact ℚ)
  obtain ⟨hbuild, -, hformed⟩ := hcatalogs sites network
  obtain ⟨hworkflow, -, -⟩ := hworkflows 8 "bread" (finite 0) none jobs
  have hresult : ((CatalogDraft.made sites).2.build network).toOption.map (fun catalog =>
      (catalog.meanTopSpeed,
        catalog.nodes.map fun node => (node.id, node.name, node.site.id))) =
      some (finite (13 / 2), [(0, "oven", 0), (1, "kiln", 0)]) := by
    decide +kernel
  cases hmade : (CatalogDraft.made sites).2.build network with
  | error fault =>
      rw [hmade] at hresult
      cases hresult
  | ok catalog =>
      rw [hmade] at hresult
      obtain ⟨hmean, hnodes⟩ := Prod.mk.inj (Option.some.inj hresult)
      exact ⟨by decide +kernel, hmade ▸ hbuild, ⟨catalog, rfl, hformed catalog hmade,
        (hexact ℚ sites network catalog hmade).1, hmean, hnodes⟩, by decide +kernel, hworkflow,
        by decide +kernel⟩

end SecondTries

end WattPlan
