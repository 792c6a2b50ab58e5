import WattPlan.Catalog

/-!
# Drawing up a catalog

A draft takes sites and nodes one at a time and refuses what breaks a rule, leaving the draft as it
was. `build` closes it. `Step` and `perform` describe a whole history of such steps.
-/

namespace WattPlan

/-- A catalog while it is drawn up. -/
structure CatalogDraft (α : Type) where
  sites : List (Site α)
  nodes : List (Node α)

namespace CatalogDraft

variable {α : Type} [Scalar α]

/-- A draft without sites and nodes. -/
def empty {α : Type} : CatalogDraft α :=
  ⟨[], []⟩

/-- The power levels of a node, if there is at least one, none breaks a rule and they are ordered
from fast to slow. -/
def checkLevels (name : String) (levels : List (PowerLevel α)) :
    Except (ModelFault α) (PowerLevel α × List (PowerLevel α)) :=
  match levels with
  | [] => .error (.noPowerLevels name)
  | fastest :: slower =>
      match PowerLevel.firstFault? levels with
      | some (place, fault) => .error (.invalidPowerLevel name place fault)
      | none =>
          if PowerLevel.descending levels then .ok (fastest, slower)
          else .error (.unorderedPowerLevels name)

/-- Adds a site and gives its number. -/
def addSite {α : Type} (draft : CatalogDraft α) (name : String) (tariff : Tariff α) :
    CatalogDraft α × SiteId :=
  let id := draft.sites.length
  ({ draft with sites := draft.sites ++ [⟨id, name, tariff⟩] }, id)

/-- Adds a node to a site of the draft and gives its number. -/
def addNode (draft : CatalogDraft α) (name : String) (site : SiteId)
    (levels : List (PowerLevel α)) : Except (ModelFault α) (CatalogDraft α × NodeId) :=
  match draft.sites[site]? with
  | none => .error (.unknownSite name site)
  | some host =>
      if draft.nodes.any fun node => node.name = name then .error (.duplicateNode name)
      else do
        let (fastest, slower) ← checkLevels name levels
        let id := draft.nodes.length
        .ok ({ draft with nodes := draft.nodes ++ [⟨id, name, host, fastest, slower⟩] }, id)

/-- Closes a draft that has at least one node. -/
def build {α : Type} (draft : CatalogDraft α) (network : Network α) :
    Except (ModelFault α) (Catalog α) :=
  if nonempty : draft.nodes = [] then .error .noNodes
  else .ok ⟨draft.sites, draft.nodes, network, nonempty⟩

/-- One step of drawing up a catalog. -/
inductive Step (α : Type) where
  | site (name : String) (prices : List α)
  | node (name : String) (site : SiteId) (levels : List (PowerLevel α))

/-- Takes one step: the draft after it and the number of what was added. -/
def take (draft : CatalogDraft α) : Step α → Except (ModelFault α) (CatalogDraft α × Nat)
  | .site name prices => do
      let tariff ← Tariff.ofHourly prices
      .ok (draft.addSite name tariff)
  | .node name site levels => draft.addNode name site levels

/-- Takes steps in turn, passing over those that fail: the draft after them and the outcome of each
one. -/
def perform (draft : CatalogDraft α) :
    List (Step α) → CatalogDraft α × List (Except (ModelFault α) Nat)
  | [] => (draft, [])
  | step :: rest =>
      match draft.take step with
      | .ok (next, id) =>
          let (last, outcomes) := perform next rest
          (last, .ok id :: outcomes)
      | .error fault =>
          let (last, outcomes) := perform draft rest
          (last, .error fault :: outcomes)

end CatalogDraft

end WattPlan
