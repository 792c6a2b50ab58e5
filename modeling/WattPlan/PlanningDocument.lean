import WattPlan.Catalog.Draft
import WattPlan.Planner
import WattPlan.WorkflowFile
import WattPlan.Yaml.Reading

/-!
# Planning documents

A planning document describes the catalog and the settings of a planner. Sites and nodes are listed
under their names. `ofTree?` takes them up in the order of their names, so the numbers that `setup`
gives them do not depend on the order in which they were written.
-/

namespace WattPlan

/-- A site as a document describes it, with the power levels of its nodes by name. -/
structure SiteEntry (α : Type) where
  prices : List α
  nodes : List (String × List (PowerLevel α))

/-- The settings that a document states. -/
structure Preferences (α : Type) where
  variant : Option String
  slackFactor : Option α
  reliabilityFactor : Option α
  seed : Option Nat
  beta : Option α
  gamma : Option α
  tau : Option α
  maxSiteRetries : Option Nat
  maxRetryCount : Option Nat

/-- A planning document. The bandwidths are those within a site and between sites. -/
structure PlanningDocument (α : Type) where
  bandwidths : Option (α × α)
  sites : List (String × SiteEntry α)
  preferences : Preferences α

/-- What a planner needs to know before the first workflow. -/
structure Setup (α : Type) where
  catalog : Catalog α
  settings : Settings α

variable {α : Type} [Scalar α]

namespace Preferences

/-- No setting stated. -/
def none {α : Type} : Preferences α :=
  ⟨.none, .none, .none, .none, .none, .none, .none, .none, .none⟩

/-- The settings, with the standard ones where none are stated. -/
def settings (preferences : Preferences α) : Except (PlanFault α) (Settings α) := do
  let standard : Settings α := Settings.standard
  let variant ←
    match preferences.variant with
    | .none => .ok standard.variant
    | some name => Variant.ofName name
  .ok
    { variant
      slackFactor := preferences.slackFactor.getD standard.slackFactor
      reliabilityFactor := preferences.reliabilityFactor.getD standard.reliabilityFactor
      seed := preferences.seed.getD standard.seed
      beta := preferences.beta.getD standard.beta
      gamma := preferences.gamma.getD standard.gamma
      tau := preferences.tau.getD standard.tau
      maxSiteRetries := preferences.maxSiteRetries.getD standard.maxSiteRetries
      maxRetryCount := preferences.maxRetryCount.getD standard.maxRetryCount }

end Preferences

namespace PlanningDocument

section Reading

variable [Numeral α]

/-- The largest value of the settings that are counts of 64 bits. -/
def largestCount : Nat :=
  Nat.pow 2 64 - 1

/-- The largest number of retries that a document can state. -/
def largestRetryCount : Nat :=
  Nat.pow 2 32 - 1

/-- Reads the bandwidths of a network. -/
def bandwidthsOfTree? (tree : Tree α) : Option (α × α) := do
  let entries ← tree.record? ["intra_site_bandwidth", "inter_site_bandwidth"]
  some
    (← Tree.required "intra_site_bandwidth" Tree.quantity? entries,
      ← Tree.required "inter_site_bandwidth" Tree.quantity? entries)

/-- Reads a power level. Without a failure rate it never fails. -/
def levelOfTree? (tree : Tree α) : Option (PowerLevel α) := do
  let entries ← tree.record? ["speed", "power", "failure_rate"]
  some
    { speed := ← Tree.required "speed" Tree.quantity? entries
      power := ← Tree.required "power" Tree.quantity? entries
      failureRate := ← Tree.withDefault "failure_rate" 0 Tree.quantity? entries }

/-- Reads the power levels of a node. -/
def nodeOfTree? (tree : Tree α) : Option (List (PowerLevel α)) := do
  let entries ← tree.record? ["levels"]
  Tree.required "levels" (Tree.listOf? levelOfTree?) entries

/-- Reads a mapping and sorts it by key. -/
def sortedMapOf? {β : Type} (read : Tree α → Option β) (tree : Tree α) :
    Option (List (String × β)) :=
  (Tree.mapOf? read tree).map Tree.sortEntries

/-- Reads a site. -/
def siteOfTree? (tree : Tree α) : Option (SiteEntry α) := do
  let entries ← tree.record? ["prices", "nodes"]
  some
    { prices := ← Tree.required "prices" (Tree.listOf? Tree.quantity?) entries
      nodes := ← Tree.withDefault "nodes" [] (sortedMapOf? nodeOfTree?) entries }

/-- Reads the settings that a document states. -/
def preferencesOfTree? (tree : Tree α) : Option (Preferences α) := do
  let entries ← tree.record? ["variant", "slack_factor", "reliability_factor", "seed", "beta",
    "gamma", "tau", "max_site_retries", "max_retry_count"]
  some
    { variant := ← Tree.optional "variant" Tree.text? entries
      slackFactor := ← Tree.optional "slack_factor" Tree.quantity? entries
      reliabilityFactor := ← Tree.optional "reliability_factor" Tree.quantity? entries
      seed := ← Tree.optional "seed" (Tree.natural? largestCount) entries
      beta := ← Tree.optional "beta" Tree.quantity? entries
      gamma := ← Tree.optional "gamma" Tree.quantity? entries
      tau := ← Tree.optional "tau" Tree.quantity? entries
      maxSiteRetries := ← Tree.optional "max_site_retries" (Tree.natural? largestCount) entries
      maxRetryCount := ← Tree.optional "max_retry_count" (Tree.natural? largestRetryCount) entries }

/-- Reads a planning document. -/
def ofTree? (tree : Tree α) : Option (PlanningDocument α) := do
  let entries ← tree.record? ["network", "sites", "planner"]
  some
    { bandwidths := ← Tree.optional "network" bandwidthsOfTree? entries
      sites := ← Tree.required "sites" (sortedMapOf? siteOfTree?) entries
      preferences := ← Tree.withDefault "planner" Preferences.none preferencesOfTree? entries }

end Reading

/-- The network of a document. Without one, transfers take no time. -/
def network (document : PlanningDocument α) : Except (ModelFault α) (Network α) :=
  match document.bandwidths with
  | some (intraSite, interSite) => Network.ofBandwidths intraSite interSite
  | none => .ok Network.unlimited

/-- Adds a site and its nodes. -/
def addSite (name : String) (entry : SiteEntry α) (draft : CatalogDraft α) :
    Except (LoadFault α) (CatalogDraft α) := do
  let tariff ← LoadFault.within (.tariffOf name) (LoadFault.ofModel (Tariff.ofHourly entry.prices))
  let (draft, site) := draft.addSite name tariff
  entry.nodes.foldlM (fun draft (node, levels) => do
    let (next, _) ← LoadFault.within (.nodeIn name)
      (LoadFault.ofModel (draft.addNode node site levels))
    .ok next) draft

/-- The catalog and the settings of a document. The catalog is looked at first. -/
def setup (document : PlanningDocument α) : Except (LoadFault α) (Setup α) := do
  let network ← LoadFault.ofModel document.network
  let draft ← document.sites.foldlM (fun draft (name, entry) => addSite name entry draft)
    CatalogDraft.empty
  let catalog ← LoadFault.ofModel (draft.build network)
  match document.preferences.settings with
  | .ok settings => .ok ⟨catalog, settings⟩
  | .error fault => .error (.plan fault)

end PlanningDocument

/-- The catalog and the settings that a text describes. -/
def Setup.ofText [Numeral α] (text : String) : Except (LoadFault α) (Setup α) :=
  match (Yaml.parse? text).bind PlanningDocument.ofTree? with
  | some document => document.setup
  | none => .error (.unreadable .planning)

end WattPlan
