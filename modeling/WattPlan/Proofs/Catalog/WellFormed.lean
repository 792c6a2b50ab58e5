import Mathlib.Data.List.Nodup
import WattPlan.Proofs.Catalog.Draft
import WattPlan.Proofs.Traversals

/-!
# Well-formed catalogs

What every catalog that is built keeps to, whatever steps were refused on the way and for every type
of quantities: sites and nodes are numbered by their places, no two nodes share a name, every node
stands at a site of the catalog, and its power levels have sensible numbers and do not get faster
(`CatalogDraft.Drawn.wellFormed`).
-/

namespace WattPlan

variable {α : Type} [Scalar α]

namespace PowerLevel

/-- A level with a finite speed above zero, and a finite power and failure rate not below it. -/
structure Valid (level : PowerLevel α) : Prop where
  finite_speed : Scalar.isFinite level.speed = true
  speed_pos : 0 < level.speed
  finite_power : Scalar.isFinite level.power = true
  power_nonneg : 0 ≤ level.power
  finite_failureRate : Scalar.isFinite level.failureRate = true
  failureRate_nonneg : 0 ≤ level.failureRate

/-- A level breaks no rule just when its numbers are valid. -/
theorem fault?_eq_none_iff_valid {level : PowerLevel α} : level.fault? = none ↔ level.Valid := by
  constructor
  · intro h
    unfold fault? at h
    split_ifs at h with hspeed hpower hrate
    exact ⟨hspeed.1, hspeed.2, hpower.1, hpower.2, hrate.1, hrate.2⟩
  · intro h
    unfold fault?
    rw [if_neg (not_not.2 ⟨h.finite_speed, h.speed_pos⟩),
      if_neg (not_not.2 ⟨h.finite_power, h.power_nonneg⟩),
      if_neg (not_not.2 ⟨h.finite_failureRate, h.failureRate_nonneg⟩)]

/-- In the order that is checked no level is faster than the one before it. -/
theorem isChain_of_descending {levels : List (PowerLevel α)} (h : descending levels = true) :
    levels.IsChain fun faster slower => ¬ faster.speed < slower.speed := by
  induction levels with
  | nil => exact .nil
  | cons first rest ih =>
      cases rest with
      | nil => exact .singleton first
      | cons second rest =>
          rw [descending, Bool.and_eq_true, Bool.not_eq_true', decide_eq_false_iff_not] at h
          exact .cons_cons h.1 (ih h.2)

end PowerLevel

/-- A catalog in which sites and nodes are numbered by their places, no two nodes share a name, each
node stands at a site of the catalog, and the power levels of a node are valid and do not get
faster. -/
structure Catalog.WellFormed (catalog : Catalog α) : Prop where
  site_id : ∀ {id} {site : Site α}, catalog.sites[id]? = some site → site.id = id
  node_id : ∀ {id} {node : Node α}, catalog.nodes[id]? = some node → node.id = id
  names_nodup : (catalog.nodes.map Node.name).Nodup
  site_lt : ∀ {node : Node α}, node ∈ catalog.nodes → node.site.id < catalog.sites.length
  node_site : ∀ {node : Node α}, node ∈ catalog.nodes →
    catalog.sites[node.site.id]? = some node.site
  levels_ne_nil : ∀ {node : Node α}, node ∈ catalog.nodes → node.levels ≠ []
  level_valid : ∀ {node : Node α}, node ∈ catalog.nodes → ∀ level ∈ node.levels, level.Valid
  ordered : ∀ {node : Node α}, node ∈ catalog.nodes →
    node.levels.IsChain fun faster slower => ¬ faster.speed < slower.speed

namespace CatalogDraft

variable {draft next : CatalogDraft α}

/-- What an accepted node changes: it stands behind the others, at the site that was meant and with a
name of its own. -/
theorem addNode_eq_ok {name : String} {site : SiteId} {levels : List (PowerLevel α)} {id : NodeId}
    (h : draft.addNode name site levels = .ok (next, id)) :
    ∃ node : Node α, node.name = name ∧ draft.sites[site]? = some node.site ∧
      (∀ other ∈ draft.nodes, other.name ≠ name) ∧
      next = { draft with nodes := draft.nodes ++ [node] } := by
  unfold addNode at h
  split at h
  · cases h
  · split at h
    · cases h
    · rename_i host hsite hname
      obtain ⟨checked, -, hnext⟩ := exists_of_bind_eq_ok h
      cases hnext
      exact ⟨_, rfl, hsite, by simpa using hname, rfl⟩

/-- No two nodes of a draft share a name. -/
theorem Drawn.names_nodup (h : draft.Drawn) : (draft.nodes.map Node.name).Nodup := by
  induction h with
  | empty => exact List.nodup_nil
  | take draft next step id _ htake ih =>
      cases step with
      | site name prices =>
          obtain ⟨tariff, -, hnext⟩ := exists_of_bind_eq_ok htake
          cases hnext
          exact ih
      | node name site levels =>
          obtain ⟨node, hname, -, hother, rfl⟩ := addNode_eq_ok htake
          rw [List.map_append, List.map_singleton, ← List.concat_eq_append]
          refine List.Nodup.concat (fun hmem => ?_) ih
          obtain ⟨other, hmem, hsame⟩ := List.mem_map.1 hmem
          exact hother other hmem (hsame.trans hname)

omit [Scalar α] in
/-- A catalog that is built has the sites and nodes of its draft. -/
theorem build_eq_ok {network : Network α} {catalog : Catalog α}
    (h : draft.build network = .ok catalog) :
    catalog.sites = draft.sites ∧ catalog.nodes = draft.nodes := by
  unfold build at h
  split at h
  · cases h
  · cases h
    exact ⟨rfl, rfl⟩

/-- A catalog that is built is well-formed. -/
theorem Drawn.wellFormed (h : draft.Drawn) {network : Network α} {catalog : Catalog α}
    (hbuild : draft.build network = .ok catalog) : catalog.WellFormed := by
  obtain ⟨hsites, hnodes⟩ := build_eq_ok hbuild
  have harranged := h.arranged
  constructor
  case site_id => exact hsites ▸ harranged.site_id
  case node_id => exact hnodes ▸ harranged.node_id
  case names_nodup => exact hnodes ▸ h.names_nodup
  case site_lt =>
    intro node hnode
    rw [hnodes] at hnode
    rw [hsites]
    exact (List.getElem?_eq_some_iff.1 (harranged.node_site hnode)).1
  case node_site =>
    intro node hnode
    rw [hnodes] at hnode
    rw [hsites]
    exact harranged.node_site hnode
  case levels_ne_nil => exact fun _ => List.cons_ne_nil _ _
  case level_valid =>
    intro node hnode level hlevel
    rw [hnodes] at hnode
    exact PowerLevel.fault?_eq_none_iff_valid.1 (harranged.level hnode level hlevel)
  case ordered =>
    intro node hnode
    rw [hnodes] at hnode
    exact PowerLevel.isChain_of_descending (harranged.descending hnode)

end CatalogDraft

end WattPlan
