import WattPlan.Generator
import WattPlan.Placement

/-!
# The sites that are searched for a job

Inside a site the nodes are searched in the order and to the extent that the profile names. Which
sites are searched, and in which order, is a matter of prices, of the place of the data, or of
chance.
-/

namespace WattPlan

variable {α : Type} [Scalar α]

/-- The least member of a list by a comparison, the first of equal ones. -/
def leastBy? {β : Type} (compare : β → β → Ordering) : List β → Option β
  | [] => none
  | first :: rest =>
      some (rest.foldl (fun best other => if compare other best = .lt then other else best) first)

namespace Problem

/-- What a site gives for a unit of money when a workflow arrives: the mean efficiency of its nodes
over the price when the first of them falls idle. A site without nodes gives nothing. -/
def worthOf (catalog : Catalog α) (submittedAt : α) (timelines : Timelines α) (site : Site α) :
    α :=
  let nodes := catalog.nodesAt site.id
  if nodes.isEmpty then 0
  else
    let efficiency := Scalar.mean (nodes.map Node.efficiency)
    let idle := Scalar.minFrom Scalar.infinity
      (nodes.map fun node => (timelines.ofNode node.id).busyUntil)
    let price := site.tariff.priceAt (Scalar.max idle submittedAt)
    if 0 < price then efficiency / price else Scalar.infinity

/-- The worth of a site. -/
def worth (problem : Problem α) (site : Site α) : α :=
  problem.siteWorth.getD site.id 0

end Problem

namespace Request

/-- Does a node hold an input of the job? -/
def holdsData {α : Type} (request : Request α) (node : Node α) : Bool :=
  (request.job.storedInputs.any fun input => input.location = some node.id) ||
    (request.arrivals.any fun arrival => arrival.node.id = node.id)

/-- The nodes of a site in the order in which they are searched. -/
def nodesOf (request : Request α) (site : Site α) : List (Node α) :=
  let nodes := request.problem.catalog.nodesAt site.id
  match request.problem.profile.nodeOrdering with
  | .asListed => nodes
  | .efficiencyDesc => nodes.mergeSort fun a b =>
      ((Scalar.totalOrder b.efficiency a.efficiency).then (compare a.id b.id)).isLE

/-- The first feasible candidate, or a better one on a later node that holds data. -/
def firstThenLocal (request : Request α) : List (Node α) → Option (Candidate α)
  | [] => none
  | node :: rest =>
      match request.tryNode node with
      | none => firstThenLocal request rest
      | some first =>
          ((rest.filter request.holdsData).map request.tryNode).foldl
            request.objective.keepBetter (some first)

/-- The candidate of a site. -/
def searchSite (request : Request α) (site : Site α) : Option (Candidate α) :=
  let nodes := request.nodesOf site
  match request.problem.profile.nodeSelection with
  | .firstFeasible => nodes.findSome? request.tryNode
  | .firstFeasibleThenLocal => request.firstThenLocal nodes
  | .allNodes => (nodes.map request.tryNode).foldl request.objective.keepBetter none

/-- The best of the candidates of some sites. -/
def searchSites (request : Request α) (sites : List (Site α)) : Option (Candidate α) :=
  (sites.map request.searchSite).foldl request.objective.keepBetter none

/-- The sites that have nodes. -/
def sites {α : Type} (request : Request α) : List (Site α) :=
  request.problem.catalog.populatedSites

/-- The node that stores an input. The location of a stored input must be the number of a node of the
catalog. -/
def storage? {α : Type} (request : Request α) (input : Artifact α) : Option (Node α) :=
  input.location.bind request.problem.catalog.node?

/-- The numbers of the sites that hold an input of the job. -/
def dataSites {α : Type} (request : Request α) : List SiteId :=
  (request.job.storedInputs.filterMap request.storage?).map (fun node => node.site.id) ++
    request.arrivals.map fun arrival => arrival.node.site.id

/-- The site with the lowest price, the first of equal ones. -/
def cheapestBy (request : Request α) (price : Site α → α) : List (Site α) :=
  (leastBy? (fun a b => (Scalar.totalOrder (price a) (price b)).then (compare a.id b.id))
    request.sites).toList

/-- A rough time for running the job at a site, at the mean top speed of its nodes, with the data
that has to come from other sites. -/
def roughTime (request : Request α) (site : Site α) : α :=
  let catalog := request.problem.catalog
  let speed := Scalar.mean ((catalog.nodesAt site.id).map fun node => node.fastest.speed)
  let fromParents := (request.arrivals.filter fun arrival => arrival.node.site.id ≠ site.id).map
    Arrival.data
  let isRemote := fun input : Artifact α =>
    (request.storage? input).all fun node => node.site.id ≠ site.id
  let fromStorage := (request.job.storedInputs.filter isRemote).map Artifact.size
  (fromParents ++ fromStorage).foldl
    (fun time data => time + data / catalog.network.interSite) (request.job.length / speed)

/-- A rough cost of running the job at a site, at the mean top power of its nodes. -/
def siteEstimate (request : Request α) (site : Site α) : α :=
  let nodes := request.problem.catalog.nodesAt site.id
  let power := Scalar.mean (nodes.map fun node => node.fastest.power)
  site.tariff.energyCost request.begin (request.begin + request.roughTime site) power

/-- The site of the lowest estimate among the one of the highest worth and those that hold data. -/
def worthiestSite (request : Request α) : List (Site α) :=
  let worth := request.problem.worth
  let ranked := request.sites.mergeSort fun a b =>
    ((Scalar.totalOrder (worth b) (worth a)).then (compare a.id b.id)).isLE
  let holdsData := fun site : Site α => request.dataSites.contains site.id
  let candidates := ranked.take 1 ++ (ranked.drop 1).filter holdsData
  (leastBy? (fun a b => Scalar.totalOrder (request.siteEstimate a) (request.siteEstimate b))
    candidates).toList

/-- The sites by ascending price at the begin of the job. -/
def sitesByPrice (request : Request α) : List (Site α) :=
  let price := fun site : Site α => site.tariff.priceAt request.begin
  request.sites.mergeSort fun a b =>
    ((Scalar.totalOrder (price a) (price b)).then (compare a.id b.id)).isLE

/-- The sites to search, in order. Only the random choices draw. -/
def sitesFor (request : Request α) : SiteOrdering → Draw (List (Site α))
  | .random => do
      let site? ← Generator.choose? request.sites
      pure site?.toList
  | .cheapestAveragePrice =>
      pure (request.cheapestBy fun site =>
        site.tariff.averagePrice request.begin request.subDeadline)
  | .cheapestCurrentPrice =>
      pure (request.cheapestBy fun site => site.tariff.priceAt request.begin)
  | .dataLocality => do
      let holding := request.sites.filter fun site => request.dataSites.contains site.id
      let site? ← Generator.choose? (if holding.isEmpty then request.sites else holding)
      pure site?.toList
  | .priceAscending => pure request.sitesByPrice
  | .instructionsPerPrice => pure request.worthiestSite
  | .allSites | .boundedRetry => pure request.sites

end Request

end WattPlan
