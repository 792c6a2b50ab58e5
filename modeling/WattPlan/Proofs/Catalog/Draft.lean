import WattPlan.Catalog.Draft

/-!
# Catalogs that a draft gives

`CatalogDraft.Drawn` holds of the drafts that accepted steps lead to, and `Catalog.Drafted` of the
catalogs that such a draft gives with a valid network. In a drafted catalog sites and nodes are
numbered by their places, the site of a node is a site of the catalog, prices are amounts, no power
level breaks a rule, and the levels of a node are ordered from fast to slow.
-/

namespace WattPlan

variable {α : Type} [Scalar α]

namespace CatalogDraft

/-- The drafts that accepted steps lead to. -/
inductive Drawn : CatalogDraft α → Prop where
  | empty : Drawn CatalogDraft.empty
  | take (draft next step id) : Drawn draft → draft.take step = .ok (next, id) → Drawn next

/-- Taking steps in turn leads from a draft to a draft, whether or not each step is accepted. -/
theorem Drawn.perform {draft : CatalogDraft α} (h : Drawn draft) (steps : List (Step α)) :
    Drawn (draft.perform steps).1 := by
  induction steps generalizing draft with
  | nil => exact h
  | cons step rest ih =>
      rw [CatalogDraft.perform]
      cases htake : draft.take step with
      | error fault => exact ih h
      | ok result => exact ih (h.take _ _ _ _ htake)

/-- The prices of a tariff that is accepted are amounts. -/
theorem isAmount_of_ofHourly {prices : List α} {tariff : Tariff α}
    (h : Tariff.ofHourly prices = .ok tariff) :
    ∀ price ∈ tariff.hourly, Scalar.isAmount price = true := by
  unfold Tariff.ofHourly at h
  split at h
  · cases h
  · split at h
    · cases h
    · rename_i hinvalid
      cases h
      intro price hprice
      obtain ⟨hour, hhour⟩ := List.mem_iff_getElem?.1 hprice
      have hmem : (price, hour) ∈ prices.zipIdx := List.mk_mem_zipIdx_iff_getElem?.2 hhour
      simpa using List.find?_eq_none.1 hinvalid _ hmem

/-- A draft in which sites and nodes are numbered by their places, prices are amounts, nodes stand
at sites of the draft, no power level breaks a rule, and the levels of a node are ordered from fast
to slow. -/
structure Arranged (draft : CatalogDraft α) : Prop where
  site_id : ∀ {id} {site : Site α}, draft.sites[id]? = some site → site.id = id
  price : ∀ {site : Site α}, site ∈ draft.sites →
    ∀ price ∈ site.tariff.hourly, Scalar.isAmount price = true
  node_id : ∀ {id} {node : Node α}, draft.nodes[id]? = some node → node.id = id
  node_site : ∀ {node : Node α}, node ∈ draft.nodes → draft.sites[node.site.id]? = some node.site
  level : ∀ {node : Node α}, node ∈ draft.nodes → ∀ level ∈ node.levels, level.fault? = none
  descending : ∀ {node : Node α}, node ∈ draft.nodes → PowerLevel.descending node.levels = true

/-- Levels that pass the check are those that were given, none of them breaks a rule, and they are
ordered from fast to slow. -/
theorem checkLevels_eq_ok {name : String} {levels slower : List (PowerLevel α)}
    {fastest : PowerLevel α} (h : checkLevels name levels = .ok (fastest, slower)) :
    levels = fastest :: slower ∧ (∀ level ∈ levels, level.fault? = none) ∧
      PowerLevel.descending levels = true := by
  cases levels with
  | nil => cases h
  | cons first rest =>
      dsimp only [checkLevels] at h
      split at h
      · cases h
      · rename_i hfault
        split at h
        · rename_i hdescending
          cases h
          refine ⟨rfl, fun level hlevel => ?_, hdescending⟩
          obtain ⟨place, hplace⟩ := List.mem_iff_getElem?.1 hlevel
          have hmem : (level, place) ∈ (fastest :: slower).zipIdx :=
            List.mk_mem_zipIdx_iff_getElem?.2 hplace
          have hnone := List.findSome?_eq_none_iff.1 hfault _ hmem
          simpa using hnone
        · cases h

omit [Scalar α] in
/-- An entry of a list with one more element is an entry of the list or the new element, which is at
the place that the length of the list gives. -/
theorem getElem?_snoc_eq_some {β : Type} {xs : List β} {x y : β} {place : Nat}
    (h : (xs ++ [x])[place]? = some y) : xs[place]? = some y ∨ (xs.length = place ∧ x = y) := by
  rw [List.getElem?_append, List.getElem?_singleton] at h
  split at h
  · exact .inl h
  · split at h
    · exact .inr ⟨by omega, Option.some.inj h⟩
    · cases h

/-- A site with a tariff of amounts keeps a draft arranged. -/
theorem Arranged.addSite {draft : CatalogDraft α} (h : draft.Arranged) (name : String)
    {tariff : Tariff α} (htariff : ∀ price ∈ tariff.hourly, Scalar.isAmount price = true) :
    (draft.addSite name tariff).1.Arranged := by
  constructor
  case site_id =>
    intro place site hsite
    rcases getElem?_snoc_eq_some hsite with hold | ⟨hplace, rfl⟩
    · exact h.site_id hold
    · exact hplace
  case price =>
    intro site hsite
    rcases List.mem_append.1 hsite with hsite | hsite
    · exact h.price hsite
    · rw [List.mem_singleton.1 hsite]
      exact htariff
  case node_id => exact h.node_id
  case node_site =>
    -- The sites of the nodes are numbered below the new one.
    intro node hnode
    have hold := h.node_site hnode
    exact (List.getElem?_append_left (List.getElem?_eq_some_iff.1 hold).1).trans hold
  case level => exact h.level
  case descending => exact h.descending

/-- A node that is accepted keeps a draft arranged. -/
theorem Arranged.addNode {draft next : CatalogDraft α} (h : draft.Arranged) {name : String}
    {site : SiteId} {levels : List (PowerLevel α)} {id : NodeId}
    (hadd : draft.addNode name site levels = .ok (next, id)) : next.Arranged := by
  unfold CatalogDraft.addNode at hadd
  split at hadd
  · cases hadd
  · rename_i host hhost
    split at hadd
    · cases hadd
    · cases hlevels : checkLevels name levels with
      | error fault =>
          rw [hlevels] at hadd
          cases hadd
      | ok checked =>
          obtain ⟨fastest, slower⟩ := checked
          rw [hlevels] at hadd
          cases hadd
          obtain ⟨hlist, hfault, hdescending⟩ := checkLevels_eq_ok hlevels
          constructor
          case site_id => exact h.site_id
          case price => exact h.price
          case node_id =>
            intro place node hnode
            rcases getElem?_snoc_eq_some hnode with hold | ⟨hplace, rfl⟩
            · exact h.node_id hold
            · exact hplace
          case node_site =>
            intro node hnode
            rcases List.mem_append.1 hnode with hnode | hnode
            · exact h.node_site hnode
            · obtain rfl := List.mem_singleton.1 hnode
              rw [h.site_id hhost]
              exact hhost
          case level =>
            intro node hnode
            rcases List.mem_append.1 hnode with hnode | hnode
            · exact h.level hnode
            · obtain rfl := List.mem_singleton.1 hnode
              rw [hlist] at hfault
              exact hfault
          case descending =>
            intro node hnode
            rcases List.mem_append.1 hnode with hnode | hnode
            · exact h.descending hnode
            · obtain rfl := List.mem_singleton.1 hnode
              rw [hlist] at hdescending
              exact hdescending

/-- An accepted step keeps a draft arranged. -/
theorem Arranged.take {draft next : CatalogDraft α} {step : Step α} {id : Nat}
    (h : draft.Arranged) (htake : draft.take step = .ok (next, id)) : next.Arranged := by
  cases step with
  | site name prices =>
      simp only [CatalogDraft.take] at htake
      cases htariff : Tariff.ofHourly prices with
      | error fault =>
          rw [htariff] at htake
          cases htake
      | ok tariff =>
          rw [htariff] at htake
          cases htake
          exact h.addSite name (isAmount_of_ofHourly htariff)
  | node name site levels => exact h.addNode htake

/-- The drafts that accepted steps lead to are arranged. -/
theorem Drawn.arranged {draft : CatalogDraft α} (h : Drawn draft) : draft.Arranged := by
  induction h with
  | empty =>
      constructor <;> simp [CatalogDraft.empty]
  | take draft next step id _ htake ih => exact ih.take htake

end CatalogDraft

namespace Catalog

/-- The catalogs that drafts give with a network of valid bandwidths. -/
def Drafted (catalog : Catalog α) : Prop :=
  ∃ (draft : CatalogDraft α) (network : Network α) (intraSite interSite : α),
    draft.Drawn ∧ Network.ofBandwidths intraSite interSite = .ok network ∧
      draft.build network = .ok catalog

omit [Scalar α] in
/-- A node of the catalog is one of those at its site. -/
theorem mem_nodesAt {catalog : Catalog α} {node : Node α} (hnode : node ∈ catalog.nodes) :
    node ∈ catalog.nodesAt node.site.id :=
  List.mem_filter.2 ⟨hnode, by simp⟩

namespace Drafted

variable {catalog : Catalog α}

/-- The sites and nodes of a drafted catalog are those of an arranged draft. -/
theorem arranged (h : catalog.Drafted) :
    CatalogDraft.Arranged ⟨catalog.sites, catalog.nodes⟩ := by
  obtain ⟨draft, network, intraSite, interSite, hdrawn, -, hbuild⟩ := h
  dsimp only [CatalogDraft.build] at hbuild
  split at hbuild
  · cases hbuild
  · cases hbuild
    exact hdrawn.arranged

/-- A site is numbered by its place. -/
theorem site_id (h : catalog.Drafted) {id : SiteId} {site : Site α}
    (hsite : catalog.sites[id]? = some site) : site.id = id :=
  h.arranged.site_id hsite

/-- Sites of one number are one site. -/
theorem site_inj (h : catalog.Drafted) {site other : Site α} (hsite : site ∈ catalog.sites)
    (hother : other ∈ catalog.sites) (hid : site.id = other.id) : site = other := by
  obtain ⟨place, hplace⟩ := List.mem_iff_getElem?.1 hsite
  obtain ⟨otherPlace, hotherPlace⟩ := List.mem_iff_getElem?.1 hother
  rw [h.site_id hplace, h.site_id hotherPlace] at hid
  rw [hid, hotherPlace] at hplace
  exact (Option.some.inj hplace).symm

/-- A node is numbered by its place. -/
theorem node_id (h : catalog.Drafted) {id : NodeId} {node : Node α}
    (hnode : catalog.node? id = some node) : node.id = id :=
  h.arranged.node_id hnode

/-- A node of the catalog is found under its number. -/
theorem node?_id (h : catalog.Drafted) {node : Node α} (hnode : node ∈ catalog.nodes) :
    catalog.node? node.id = some node := by
  obtain ⟨id, hid⟩ := List.mem_iff_getElem?.1 hnode
  rw [h.node_id hid]
  exact hid

/-- The number of a node is below the number of nodes. -/
theorem id_lt (h : catalog.Drafted) {node : Node α} (hnode : node ∈ catalog.nodes) :
    node.id < catalog.nodes.length :=
  (List.getElem?_eq_some_iff.1 (h.node?_id hnode)).1

/-- The site of a node is found under its number. -/
theorem node_site (h : catalog.Drafted) {node : Node α} (hnode : node ∈ catalog.nodes) :
    catalog.sites[node.site.id]? = some node.site :=
  h.arranged.node_site hnode

/-- The site of a node is one of those that have nodes. -/
theorem site_mem_populatedSites (h : catalog.Drafted) {node : Node α}
    (hnode : node ∈ catalog.nodes) : node.site ∈ catalog.populatedSites := by
  refine List.mem_filter.2 ⟨List.mem_of_getElem? (h.node_site hnode), ?_⟩
  simpa using List.ne_nil_of_mem (mem_nodesAt hnode)

/-- The prices at the site of a node are amounts. -/
theorem price (h : catalog.Drafted) {node : Node α} (hnode : node ∈ catalog.nodes) :
    ∀ price ∈ node.site.tariff.hourly, Scalar.isAmount price = true :=
  h.arranged.price (List.mem_of_getElem? (h.node_site hnode))

/-- No power level of a node breaks a rule. -/
theorem level (h : catalog.Drafted) {node : Node α} (hnode : node ∈ catalog.nodes)
    {level : PowerLevel α} (hlevel : level ∈ node.levels) : level.fault? = none :=
  h.arranged.level hnode level hlevel

/-- The power levels of a node are ordered from fast to slow. -/
theorem descending (h : catalog.Drafted) {node : Node α} (hnode : node ∈ catalog.nodes) :
    PowerLevel.descending node.levels = true :=
  h.arranged.descending hnode

/-- The bandwidths of a drafted catalog are defined and above zero. -/
theorem bandwidths (h : catalog.Drafted) :
    (Scalar.isNaN catalog.network.intraSite = false ∧ ¬ catalog.network.intraSite ≤ 0) ∧
      Scalar.isNaN catalog.network.interSite = false ∧ ¬ catalog.network.interSite ≤ 0 := by
  obtain ⟨draft, network, intraSite, interSite, -, hnetwork, hbuild⟩ := h
  have hlinks : catalog.network = network := by
    dsimp only [CatalogDraft.build] at hbuild
    split at hbuild
    · cases hbuild
    · cases hbuild
      rfl
  unfold Network.ofBandwidths at hnetwork
  split at hnetwork
  · cases hnetwork
  · rename_i hintra
    split at hnetwork
    · cases hnetwork
    · rename_i hinter
      cases hnetwork
      rw [hlinks]
      simpa [not_or] using And.intro hintra hinter

end Drafted

end Catalog

end WattPlan
