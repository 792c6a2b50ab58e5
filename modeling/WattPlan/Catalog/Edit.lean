import WattPlan.Catalog.Draft
import WattPlan.Edit

/-!
# Editing a catalog

The steps of drawing up a catalog as changes in place. A node is checked before the list of nodes is
touched.
-/

namespace WattPlan

namespace CatalogDraft

variable {α : Type} [Scalar α]

/-- The site of the draft that a new node is to stand at. -/
def hostOf {α : Type} (draft : CatalogDraft α) (name : String) (site : SiteId) :
    Except (ModelFault α) (Site α) :=
  match draft.sites[site]? with
  | none => .error (.unknownSite name site)
  | some host => .ok host

/-- The rule that no other node has the name of a new one. -/
def checkNodeName {α : Type} (draft : CatalogDraft α) (name : String) :
    Except (ModelFault α) Unit :=
  if draft.nodes.any fun node => node.name = name then .error (.duplicateNode name) else .ok ()

/-- Puts a site behind the others and gives its number. -/
def pushSite {α : Type} (name : String) (tariff : Tariff α) : Edit (CatalogDraft α) α SiteId := do
  let id := (← get).sites.length
  modify fun draft => { draft with sites := draft.sites ++ [⟨id, name, tariff⟩] }
  return id

/-- Puts a node behind the others and gives its number, if no rule is broken. -/
def pushNode (name : String) (site : SiteId) (levels : List (PowerLevel α)) :
    Edit (CatalogDraft α) α NodeId := do
  let host ← (← get).hostOf name site
  (← get).checkNodeName name
  let (fastest, slower) ← checkLevels name levels
  let id := (← get).nodes.length
  modify fun draft => { draft with nodes := draft.nodes ++ [⟨id, name, host, fastest, slower⟩] }
  return id

/-- The change that a step asks for, with the number of what was added. -/
def edit : Step α → Edit (CatalogDraft α) α Nat
  | .site name prices => do pushSite name (← Tariff.ofHourly prices)
  | .node name site levels => pushNode name site levels

end CatalogDraft

end WattPlan
