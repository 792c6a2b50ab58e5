import WattPlan.Placement.Search
import WattPlan.Proofs.Tariff.Binary64

/-!
# The integrals of a search

A search integrates the prices at the nodes that it evaluates, over the time of staging and of the
run, and it compares some orderings of sites by integrals, too. `Request.Integrates` lists all of
them. A request is priced where each of them is found (`Request.Priced`), as it always is over exact
quantities (`Request.priced`), and in floating point for intervals up to the instant `2 ^ 56`
(`Request.priced_of_early`). The search for a request that is priced comes to its candidate.
-/

namespace WattPlan

namespace Request

variable {α : Type} [Scalar α] {request : Request α} {node : Node α} {site : Site α}
  {tariff : Tariff α} {ordering : SiteOrdering} {start stop : α}

/-- The intervals for which a node bills a job: those of staging, as the variant bills it, and the
run at each of the power levels. -/
inductive Bills (request : Request α) (node : Node α) : α → α → Prop where
  | window : request.problem.profile.staging = .readyWindow →
      Bills request node request.begin (request.readyTime node)
  | storage : request.problem.profile.staging = .perTransfer →
      Bills request node (request.readyTime node - request.stagingTime node)
        (request.readyTime node)
  | transfer (arrival : Arrival α) : request.problem.profile.staging = .perTransfer →
      arrival ∈ request.arrivals →
      Bills request node arrival.finish (arrival.finish + request.transferTime arrival node)
  | run (choice : PowerLevel α × Nat) : choice ∈ node.levels.zipIdx →
      Bills request node (request.evaluate node (request.readyTime node) choice).start
        (request.evaluate node (request.readyTime node) choice).finish

/-- The intervals by whose integrals an ordering compares the sites. -/
inductive Compares (request : Request α) : SiteOrdering → Tariff α → α → α → Prop where
  | average (site : Site α) : site ∈ request.sites →
      Compares request .cheapestAveragePrice site.tariff request.begin request.subDeadline
  | estimate (site : Site α) : site ∈ request.sites →
      Compares request .instructionsPerPrice site.tariff request.begin
        (request.begin + request.roughTime site)

/-- The intervals over which the search for a job may integrate the prices of a tariff. -/
inductive Integrates (request : Request α) : Tariff α → α → α → Prop where
  | bill (node : Node α) (start stop : α) : node ∈ request.problem.catalog.nodes →
      request.Bills node start stop → Integrates request node.site.tariff start stop
  | compare (ordering : SiteOrdering) (tariff : Tariff α) (start stop : α) :
      request.Compares ordering tariff start stop → Integrates request tariff start stop

/-- Every integral of the search for a job is found, so the search does not go on for ever. -/
def Priced (request : Request α) : Prop :=
  ∀ tariff start stop, request.Integrates tariff start stop →
    (tariff.priceSeconds? start stop).isSome = true

/-- The integrals that an ordering compares the sites by and those of the nodes of a site are found,
so searching the site does not go on for ever. -/
def Returns (request : Request α) (ordering : SiteOrdering) (site : Site α) : Prop :=
  (∀ tariff start stop, request.Compares ordering tariff start stop →
    (tariff.priceSeconds? start stop).isSome = true) ∧
  ∀ node ∈ request.problem.catalog.nodesAt site.id, ∀ start stop, request.Bills node start stop →
    (node.site.tariff.priceSeconds? start stop).isSome = true

/-- For a request that is priced, searching any site returns. -/
theorem Priced.returns (h : request.Priced) (ordering : SiteOrdering) (site : Site α) :
    request.Returns ordering site :=
  ⟨fun _ _ _ hcompares => h _ _ _ (.compare ordering _ _ _ hcompares), fun node hnode _ _ hbills =>
    h _ _ _ (.bill node _ _ (List.mem_filter.1 hnode).1 hbills)⟩

section Exact

variable {K : Type} [Field K] [LinearOrder K] [IsStrictOrderedRing K] [FloorRing K]
  [Exponentials K]

/-- Over exact quantities every request is priced. -/
theorem priced (request : Request (Exact K)) : request.Priced :=
  fun tariff start stop _ => tariff.priceSeconds?_isSome start stop

end Exact

section Floating

open Binary64

/-- In floating point a request is priced if each interval of its search begins at zero or later and
ends by the instant `2 ^ 56`. -/
theorem priced_of_early {request : Request Float}
    (h : ∀ tariff start stop, request.Integrates tariff start stop →
      tariff.hourly.length < 2 ^ 53 ∧ ∃ v u, Denotes start v ∧ Denotes stop u ∧ u ≤ 2 ^ 56) :
    request.Priced := by
  intro tariff start stop hintegrates
  obtain ⟨hfew, v, u, hstart, hstop, hu⟩ := h tariff start stop hintegrates
  exact tariff.priceSeconds?_isSome_of_le hstart hstop hu hfew

end Floating

end Request

end WattPlan
