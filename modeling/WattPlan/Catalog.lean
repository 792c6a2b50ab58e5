import WattPlan.Tariff

/-!
# Resource catalogs

A catalog lists sites with their tariffs, the nodes of the sites and the bandwidths between nodes.
A node can run at several power levels, the fastest first. Nodes and sites are numbered from zero in
the order in which they were declared, and a node carries its site.

`transferTime` is the time data takes from node to node, `fetchTime` the time a stored artifact
takes to a node.
-/

namespace WattPlan

/-- The number of a site in its catalog. -/
abbrev SiteId : Type := Nat

/-- The number of a node in its catalog. -/
abbrev NodeId : Type := Nat

/-- An operating point of a node: its speed in instructions per second, its power in watts while
busy, and the rate of transient failures per second. -/
structure PowerLevel (α : Type) where
  speed : α
  power : α
  failureRate : α
deriving DecidableEq, Repr

/-- A place with a tariff of its own. -/
structure Site (α : Type) where
  id : SiteId
  name : String
  tariff : Tariff α

/-- A machine at a site. Its power levels are ordered from fast to slow, so the fastest one is
first. -/
structure Node (α : Type) where
  id : NodeId
  name : String
  site : Site α
  fastest : PowerLevel α
  slower : List (PowerLevel α)

/-- Bandwidths in bytes per second. -/
structure Network (α : Type) where
  intraSite : α
  interSite : α
deriving DecidableEq, Repr

/-- Everything a plan can make use of. There is at least one node. -/
structure Catalog (α : Type) where
  sites : List (Site α)
  nodes : List (Node α)
  network : Network α
  nonempty : nodes ≠ []

variable {α : Type} [Scalar α]

namespace PowerLevel

/-- The time a job of the given length takes. -/
def execTime (level : PowerLevel α) (length : α) : α :=
  length / level.speed

/-- The probability that a job of the given length meets no failure. -/
def reliability (level : PowerLevel α) (length : α) : α :=
  Scalar.exp (-level.failureRate * level.execTime length)

/-- Instructions per watt-second. -/
def efficiency (level : PowerLevel α) : α :=
  level.speed / level.power

/-- The first rule that a level breaks. -/
def fault? (level : PowerLevel α) : Option LevelFault :=
  if ¬ (Scalar.isFinite level.speed ∧ 0 < level.speed) then some .speed
  else if ¬ (Scalar.isFinite level.power ∧ 0 ≤ level.power) then some .power
  else if ¬ (Scalar.isFinite level.failureRate ∧ 0 ≤ level.failureRate) then some .failureRate
  else none

/-- Is each level at most as fast as the one before it? -/
def descending : List (PowerLevel α) → Bool
  | first :: second :: rest => !decide (first.speed < second.speed) && descending (second :: rest)
  | _ => true

/-- The first level that breaks a rule, with its place. -/
def firstFault? (levels : List (PowerLevel α)) : Option (Nat × LevelFault) :=
  levels.zipIdx.findSome? fun (level, place) => level.fault?.map (place, ·)

end PowerLevel

namespace Node

/-- The power levels of a node, from fast to slow. -/
def levels {α : Type} (node : Node α) : List (PowerLevel α) :=
  node.fastest :: node.slower

/-- The mean efficiency of the levels of a node. -/
def efficiency (node : Node α) : α :=
  Scalar.mean (node.levels.map PowerLevel.efficiency)

end Node

namespace Network

/-- A network of the given bandwidths, each of which must be above zero. -/
def ofBandwidths (intraSite interSite : α) : Except (ModelFault α) (Network α) :=
  if Scalar.isNaN intraSite ∨ intraSite ≤ 0 then .error (.invalidBandwidth .intraSite intraSite)
  else if Scalar.isNaN interSite ∨ interSite ≤ 0 then
    .error (.invalidBandwidth .interSite interSite)
  else .ok ⟨intraSite, interSite⟩

/-- A network in which transfers take no time. -/
def unlimited : Network α :=
  ⟨Scalar.infinity, Scalar.infinity⟩

end Network

namespace Catalog

/-- The node of a number. -/
def node? {α : Type} (catalog : Catalog α) (id : NodeId) : Option (Node α) :=
  catalog.nodes[id]?

/-- The node of a name. -/
def nodeNamed? {α : Type} (catalog : Catalog α) (name : String) : Option (Node α) :=
  catalog.nodes.find? fun node => node.name = name

/-- The nodes of a site, in the order of their declaration. -/
def nodesAt {α : Type} (catalog : Catalog α) (site : SiteId) : List (Node α) :=
  catalog.nodes.filter fun node => node.site.id = site

/-- The sites that have at least one node. -/
def populatedSites {α : Type} (catalog : Catalog α) : List (Site α) :=
  catalog.sites.filter fun site => !(catalog.nodesAt site.id).isEmpty

/-- The time that data takes from one node to another: none on the same node, and that of the
bandwidth within a site or between sites otherwise. -/
def transferTime (catalog : Catalog α) (size : α) (source target : Node α) : α :=
  if source.id = target.id ∨ size == 0 then 0
  else if source.site.id = target.site.id then size / catalog.network.intraSite
  else size / catalog.network.interSite

/-- The time that an artifact takes to a node. One that is stored on no node comes over the link
between sites. A location must be the number of a node of the catalog; there is no meaning in the
time for another one. -/
def fetchTime (catalog : Catalog α) (size : α) (location : Option NodeId) (target : Node α) : α :=
  match location.bind catalog.node? with
  | some source => catalog.transferTime size source target
  | none => if size == 0 then 0 else size / catalog.network.interSite

/-- The mean of the top speeds of the nodes. -/
def meanTopSpeed (catalog : Catalog α) : α :=
  Scalar.mean (catalog.nodes.map fun node => node.fastest.speed)

/-- The highest top speed of a node. -/
def maxTopSpeed (catalog : Catalog α) : α :=
  Scalar.maxFrom 0 (catalog.nodes.map fun node => node.fastest.speed)

end Catalog

end WattPlan
