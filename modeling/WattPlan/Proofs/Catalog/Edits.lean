import WattPlan.Catalog.Edit
import WattPlan.Proofs.Catalog.Draft
import WattPlan.Proofs.Edits
import WattPlan.Proofs.Traversals

/-!
# Edits of a catalog
-/

namespace WattPlan

variable {α : Type} [Scalar α]

namespace CatalogDraft

/-- Adding a site cannot fail. -/
theorem pushSite_sure {α : Type} (name : String) (tariff : Tariff α) :
    (pushSite name tariff).Sure :=
  Edit.Sure.get.bind fun _ => (Edit.Sure.modify _).bind fun _ => .pure _

/-- A node is added after everything that may be wrong with it was looked at. -/
theorem pushNode_atomic (name : String) (site : SiteId) (levels : List (PowerLevel α)) :
    (pushNode name site levels).Atomic := by
  refine Edit.Reads.get.bind_atomic fun draft => (Edit.Reads.check _).bind_atomic fun host => ?_
  refine Edit.Reads.get.bind_atomic fun _ => (Edit.Reads.check _).bind_atomic fun _ => ?_
  refine (Edit.Reads.check _).bind_atomic fun checked => ?_
  exact (Edit.Sure.get.bind fun _ => (Edit.Sure.modify _).bind fun _ => .pure _).atomic

/-- A step in drawing up a catalog leaves no trace where it fails. -/
theorem edit_atomic (step : Step α) : (edit step).Atomic := by
  cases step with
  | site name prices =>
      exact (Edit.Reads.check _).bind_atomic fun tariff => (pushSite_sure name tariff).atomic
  | node name site levels => exact pushNode_atomic name site levels

/-- Made in place, a step comes to what it comes to with a new draft. -/
theorem apply_edit (draft : CatalogDraft α) (step : Step α) :
    (edit step).apply draft =
      match draft.take step with
      | .ok (next, id) => (.ok id, next)
      | .error fault => (.error fault, draft) := by
  cases step with
  | site name prices =>
      simp only [edit, take, Edit.apply_bind, Edit.apply_check]
      cases Tariff.ofHourly prices <;> rfl
  | node name site levels =>
      simp only [edit, take, pushNode, addNode, hostOf, checkNodeName, Edit.apply_bind,
        Edit.apply_get, Edit.apply_check]
      cases draft.sites[site]? with
      | none => rfl
      | some host =>
          dsimp only
          cases draft.nodes.any fun node => decide (node.name = name) with
          | true => rfl
          | false => cases checkLevels name levels <;> rfl

/-- Made in place, steps lead to the draft that they lead to with new drafts, with the same
outcomes. -/
theorem perform_edit (draft : CatalogDraft α) (steps : List (Step α)) :
    Edit.perform edit draft steps = (draft.perform steps).swap := by
  induction steps generalizing draft with
  | nil => rfl
  | cons step rest ih =>
      rw [Edit.perform, perform, apply_edit]
      cases draft.take step <;> simp [ih]

end CatalogDraft

end WattPlan
