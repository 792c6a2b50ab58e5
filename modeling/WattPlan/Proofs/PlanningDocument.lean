import WattPlan.PlanningDocument
import WattPlan.Proofs.Catalog.Draft
import WattPlan.Proofs.Traversals
import WattPlan.Proofs.WorkflowFile.Resolution

/-!
# Catalogs of planning documents

The catalog of a document that is accepted is a drafted one, as long as links without a limit count
as valid bandwidths (`drafted_of_setup`).
-/

namespace WattPlan

variable {α : Type} [Scalar α]

namespace PlanningDocument

/-- The sites and nodes of a document are added by accepted steps. -/
theorem drawn_of_addSite {name : String} {entry : SiteEntry α} {draft last : CatalogDraft α}
    (h : draft.Drawn) (hadd : addSite name entry draft = .ok last) : last.Drawn := by
  obtain ⟨tariff, htariff, hnodes⟩ := exists_of_bind_eq_ok hadd
  rw [LoadFault.within_eq_ok, LoadFault.ofModel_eq_ok] at htariff
  have hsite : (draft.addSite name tariff).1.Drawn :=
    h.take _ _ (.site name entry.prices) _ (bind_eq_ok htariff rfl)
  refine foldlM_preserves hsite (fun draft node _ next hdraft hstep => ?_) hnodes
  obtain ⟨⟨added, id⟩, hnode, hnext⟩ := exists_of_bind_eq_ok hstep
  cases hnext
  rw [LoadFault.within_eq_ok, LoadFault.ofModel_eq_ok] at hnode
  exact hdraft.take _ _ (.node node.1 _ node.2) id hnode

/-- The network of a document has valid bandwidths. -/
theorem bandwidths_of_network
    (hunlimited : Network.ofBandwidths Scalar.infinity Scalar.infinity =
      .ok (Network.unlimited : Network α))
    {document : PlanningDocument α} {network : Network α} (h : document.network = .ok network) :
    ∃ intraSite interSite, Network.ofBandwidths intraSite interSite = .ok network := by
  unfold PlanningDocument.network at h
  split at h
  · exact ⟨_, _, h⟩
  · cases h
    exact ⟨_, _, hunlimited⟩

/-- The catalog of a document is a drafted one. -/
theorem drafted_of_setup
    (hunlimited : Network.ofBandwidths Scalar.infinity Scalar.infinity =
      .ok (Network.unlimited : Network α))
    {document : PlanningDocument α} {setup : Setup α} (h : document.setup = .ok setup) :
    setup.catalog.Drafted := by
  obtain ⟨network, hnetwork, hsites⟩ := exists_of_bind_eq_ok h
  obtain ⟨draft, hdraft, hcatalog⟩ := exists_of_bind_eq_ok hsites
  obtain ⟨catalog, hbuild, hsettings⟩ := exists_of_bind_eq_ok hcatalog
  rw [LoadFault.ofModel_eq_ok] at hnetwork hbuild
  obtain ⟨intraSite, interSite, hvalid⟩ := bandwidths_of_network hunlimited hnetwork
  have hdrawn : draft.Drawn := foldlM_preserves CatalogDraft.Drawn.empty
    (fun _ _ _ _ hbefore hstep => drawn_of_addSite hbefore hstep) hdraft
  split at hsettings
  · cases hsettings
    exact ⟨draft, network, intraSite, interSite, hdrawn, hvalid, hbuild⟩
  · cases hsettings

end PlanningDocument

end WattPlan
