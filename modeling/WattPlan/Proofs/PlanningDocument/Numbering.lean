import WattPlan.Numeral.Binary64
import WattPlan.Proofs.Catalog.WellFormed
import WattPlan.Proofs.PlanningDocument
import WattPlan.Proofs.PlanningDocument.Reordering
import WattPlan.Scalar.Binary64

/-!
# Numbers that do not depend on the order of a document

The sites and nodes of a document that is accepted are those of its catalog, in the same order
(`names_of_setup`). Since a document that is read lists them by name, their numbers follow their
names (`Catalog.Alphabetical`), and so they and all else that is made of a document stay the same when
its sites and nodes are written in another order: `Setup.ofText_reordered`.
-/

namespace WattPlan

variable {α β : Type}

/-- The name of a node, behind that of its site. -/
def Node.fullName (node : Node α) : String × String :=
  (node.site.name, node.name)

/-- Is a name before another one? The name of the site counts first, that of the node second. -/
def NameBefore (name other : String × String) : Prop :=
  name.1 < other.1 ∨ name.1 = other.1 ∧ name.2 < other.2

/-- A catalog in which sites and nodes are numbered by their places, the sites in the order of their
names, and the nodes in the order of the names of their sites and then of their own. -/
structure Catalog.Alphabetical (catalog : Catalog α) : Prop where
  site_id : ∀ {id} {site : Site α}, catalog.sites[id]? = some site → site.id = id
  node_id : ∀ {id} {node : Node α}, catalog.nodes[id]? = some node → node.id = id
  site_lt_iff : ∀ first ∈ catalog.sites, ∀ second ∈ catalog.sites,
    first.id < second.id ↔ first.name < second.name
  node_lt_iff : ∀ first ∈ catalog.nodes, ∀ second ∈ catalog.nodes,
    first.id < second.id ↔ NameBefore first.fullName second.fullName

namespace PlanningDocument

/-- The names of the sites of a document. -/
def siteNames (document : PlanningDocument α) : List String :=
  document.sites.map Prod.fst

/-- The names of the nodes of a document, behind those of their sites. -/
def nodeNames (document : PlanningDocument α) : List (String × String) :=
  document.sites.flatMap fun site => site.2.nodes.map fun node => (site.1, node.1)

/-! ### Names in a catalog -/

section Names

variable [Scalar α] {draft last : CatalogDraft α} {name : String}

/-- The nodes of a site are added behind the others, in turn. -/
theorem names_of_addNodes {nodes : List (String × List (PowerLevel α))} {site : SiteId}
    (h : nodes.foldlM (fun draft (node, levels) => do
      let (next, _) ← LoadFault.within (.nodeIn name)
        (LoadFault.ofModel (draft.addNode node site levels))
      .ok next) draft = .ok last)
    (hsite : ∃ host, draft.sites[site]? = some host ∧ host.name = name) :
    last.sites = draft.sites ∧
      last.nodes.map Node.fullName =
        draft.nodes.map Node.fullName ++ nodes.map fun node => (name, node.1) := by
  induction nodes generalizing draft with
  | nil =>
      cases h
      exact ⟨rfl, (List.append_nil _).symm⟩
  | cons node nodes ih =>
      rw [List.foldlM_cons] at h
      obtain ⟨next, hnext, hrest⟩ := exists_of_bind_eq_ok h
      obtain ⟨⟨added, id⟩, hadded, hsame⟩ := exists_of_bind_eq_ok hnext
      cases hsame
      rw [LoadFault.within_eq_ok, LoadFault.ofModel_eq_ok] at hadded
      obtain ⟨entered, hname, henters, -, rfl⟩ := CatalogDraft.addNode_eq_ok hadded
      obtain ⟨hsites, hnodes⟩ := ih hrest hsite
      obtain ⟨host, hhost, rfl⟩ := hsite
      rw [hhost] at henters
      cases henters
      refine ⟨hsites, ?_⟩
      rw [hnodes, List.map_append, List.append_assoc]
      simp [Node.fullName, hname]

/-- A site and its nodes are added behind the others. -/
theorem names_of_addSite {entry : SiteEntry α} (h : addSite name entry draft = .ok last) :
    last.sites.map Site.name = draft.sites.map Site.name ++ [name] ∧
      last.nodes.map Node.fullName =
        draft.nodes.map Node.fullName ++ entry.nodes.map fun node => (name, node.1) := by
  obtain ⟨tariff, -, hnodes⟩ := exists_of_bind_eq_ok h
  have hsite : ∃ host, (draft.addSite name tariff).1.sites[draft.sites.length]? = some host ∧
      host.name = name := ⟨_, List.getElem?_concat_length, rfl⟩
  obtain ⟨hsites, hnames⟩ := names_of_addNodes hnodes hsite
  refine ⟨?_, hnames⟩
  rw [hsites]
  exact List.map_append

/-- The sites of a document and their nodes are added behind the others, in turn. -/
theorem names_of_addSites {sites : List (String × SiteEntry α)}
    (h : sites.foldlM (fun draft (name, entry) => addSite name entry draft) draft = .ok last) :
    last.sites.map Site.name = draft.sites.map Site.name ++ sites.map Prod.fst ∧
      last.nodes.map Node.fullName = draft.nodes.map Node.fullName ++
        sites.flatMap fun site => site.2.nodes.map fun node => (site.1, node.1) := by
  induction sites generalizing draft with
  | nil =>
      cases h
      exact ⟨(List.append_nil _).symm, (List.append_nil _).symm⟩
  | cons site sites ih =>
      rw [List.foldlM_cons] at h
      obtain ⟨next, hnext, hrest⟩ := exists_of_bind_eq_ok h
      obtain ⟨hsites, hnodes⟩ := ih hrest
      obtain ⟨hsite, hnode⟩ := names_of_addSite hnext
      constructor
      · rw [hsites, hsite, List.map_cons, List.append_assoc, List.singleton_append]
      · rw [hnodes, hnode, List.flatMap_cons, List.append_assoc]

/-- The catalog of a document is drawn from accepted steps, and lists the sites and nodes of the
document in their order. -/
theorem names_of_setup {document : PlanningDocument α} {setup : Setup α}
    (h : document.setup = .ok setup) :
    setup.catalog.WellFormed ∧ setup.catalog.sites.map Site.name = document.siteNames ∧
      setup.catalog.nodes.map Node.fullName = document.nodeNames := by
  obtain ⟨network, -, hsites⟩ := exists_of_bind_eq_ok h
  obtain ⟨draft, hdraft, hcatalog⟩ := exists_of_bind_eq_ok hsites
  obtain ⟨catalog, hbuild, hsettings⟩ := exists_of_bind_eq_ok hcatalog
  rw [LoadFault.ofModel_eq_ok] at hbuild
  have hdrawn : draft.Drawn := foldlM_preserves CatalogDraft.Drawn.empty
    (fun _ _ _ _ hbefore hstep => drawn_of_addSite hbefore hstep) hdraft
  obtain ⟨hsiteNames, hnodeNames⟩ := names_of_addSites hdraft
  split at hsettings
  · cases hsettings
    obtain ⟨hsame, hsame'⟩ := CatalogDraft.build_eq_ok hbuild
    exact ⟨hdrawn.wellFormed hbuild, hsame ▸ hsiteNames, hsame' ▸ hnodeNames⟩
  · cases hsettings

end Names

/-! ### Names in a document -/

section Order

/-- What is sorted by key when it is read has ascending keys. -/
theorem ascending_of_sortedMapOf? {read : Tree α → Option β} {tree : Tree α}
    {entries : List (String × β)} (h : sortedMapOf? read tree = some entries) :
    Tree.Ascending entries := by
  obtain ⟨unsorted, -, rfl⟩ := Option.map_eq_some_iff.1 h
  exact Tree.sortEntries_ascending unsorted

variable [Scalar α] [Numeral α]

/-- The nodes of a site that is read are listed by name. -/
theorem ascending_of_siteOfTree? {tree : Tree α} {site : SiteEntry α}
    (h : siteOfTree? tree = some site) : Tree.Ascending site.nodes := by
  obtain ⟨entries, -, hprices⟩ := Option.bind_eq_some_iff.1 h
  obtain ⟨prices, -, hnodes⟩ := Option.bind_eq_some_iff.1 hprices
  obtain ⟨nodes, hread, hsite⟩ := Option.bind_eq_some_iff.1 hnodes
  cases hsite
  unfold Tree.withDefault at hread
  split at hread
  · exact ascending_of_sortedMapOf? hread
  · cases hread
    exact List.Pairwise.nil

/-- The sites of a document that is read are listed by name, and the nodes of each of them. -/
theorem ascending_of_ofTree? {tree : Tree α} {document : PlanningDocument α}
    (h : ofTree? tree = some document) :
    Tree.Ascending document.sites ∧ ∀ site ∈ document.sites, Tree.Ascending site.2.nodes := by
  obtain ⟨entries, -, hnetwork⟩ := Option.bind_eq_some_iff.1 h
  obtain ⟨bandwidths, -, hsites⟩ := Option.bind_eq_some_iff.1 hnetwork
  obtain ⟨sites, hread, hpreferences⟩ := Option.bind_eq_some_iff.1 hsites
  obtain ⟨preferences, -, hdocument⟩ := Option.bind_eq_some_iff.1 hpreferences
  cases hdocument
  obtain ⟨listed, -, hlisted⟩ := Option.bind_eq_some_iff.1 hread
  refine ⟨ascending_of_sortedMapOf? hlisted, fun site hsite => ?_⟩
  obtain ⟨unsorted, hunsorted, rfl⟩ := Option.map_eq_some_iff.1 hlisted
  obtain ⟨written, -, hwritten⟩ := Option.bind_eq_some_iff.1 hunsorted
  obtain ⟨⟨name, tree⟩, -, hentry⟩ :=
    forall₂_exists_left (mapM_eq_some_iff.1 hwritten) (Tree.mem_of_mem_sortEntries hsite)
  obtain ⟨entry, hentered, rfl⟩ := Option.map_eq_some_iff.1 hentry
  exact ascending_of_siteOfTree? hentered

omit [Scalar α] [Numeral α] in
/-- If the sites are listed by name and the nodes of each of them are, so are all nodes. -/
theorem nodeNames_pairwise {document : PlanningDocument α} (hsites : Tree.Ascending document.sites)
    (hnodes : ∀ site ∈ document.sites, Tree.Ascending site.2.nodes) :
    document.nodeNames.Pairwise NameBefore := by
  refine List.pairwise_flatMap.2 ⟨fun site hsite => ?_, hsites.imp fun hlt => ?_⟩
  · exact List.pairwise_map.2 ((hnodes site hsite).imp fun hlt => .inr ⟨rfl, hlt⟩)
  · intro name hname other hother
    obtain ⟨node, -, rfl⟩ := List.mem_map.1 hname
    obtain ⟨node', -, rfl⟩ := List.mem_map.1 hother
    exact .inl hlt

end Order

end PlanningDocument

/-! ### Numbers -/

/-- No two names are each before the other. -/
theorem NameBefore.asymm {name other : String × String} (h : NameBefore name other) :
    ¬ NameBefore other name := by
  rintro (hgt | ⟨hsame, hgt⟩)
  · rcases h with hlt | ⟨hsame, -⟩
    · exact String.lt_asymm hlt hgt
    · exact String.lt_irrefl _ (hsame ▸ hgt)
  · rcases h with hlt | ⟨-, hlt⟩
    · exact String.lt_irrefl _ (hsame ▸ hlt)
    · exact String.lt_asymm hlt hgt

/-- In a list that keeps to an asymmetric order, places follow the order. -/
theorem lt_iff_of_pairwise {before : β → β → Prop} {values : List β}
    (h : values.Pairwise before) (hasymm : ∀ a b, before a b → ¬ before b a) {place other : Nat}
    {a b : β} (ha : values[place]? = some a) (hb : values[other]? = some b) :
    place < other ↔ before a b := by
  obtain ⟨hplace, rfl⟩ := List.getElem?_eq_some_iff.1 ha
  obtain ⟨hother, rfl⟩ := List.getElem?_eq_some_iff.1 hb
  have hpairs := List.pairwise_iff_getElem.1 h
  refine ⟨hpairs place other hplace hother, fun hbefore => ?_⟩
  rcases Nat.lt_trichotomy place other with hlt | rfl | hgt
  · exact hlt
  · exact absurd hbefore (hasymm _ _ hbefore)
  · exact absurd hbefore (hasymm _ _ (hpairs other place hother hplace hgt))

/-- The numbers in a well-formed catalog follow the names if its lists do. -/
theorem Catalog.WellFormed.alphabetical [Scalar α] {catalog : Catalog α} (h : catalog.WellFormed)
    (hsites : (catalog.sites.map Site.name).Pairwise (· < ·))
    (hnodes : (catalog.nodes.map Node.fullName).Pairwise NameBefore) : catalog.Alphabetical := by
  constructor
  case site_id => exact h.site_id
  case node_id => exact h.node_id
  case site_lt_iff =>
    intro first hfirst second hsecond
    obtain ⟨place, hplace⟩ := List.mem_iff_getElem?.1 hfirst
    obtain ⟨other, hother⟩ := List.mem_iff_getElem?.1 hsecond
    rw [h.site_id hplace, h.site_id hother]
    have hpairs : catalog.sites.Pairwise fun first second => first.name < second.name :=
      List.pairwise_map.1 hsites
    exact lt_iff_of_pairwise hpairs (fun _ _ => String.lt_asymm) hplace hother
  case node_lt_iff =>
    intro first hfirst second hsecond
    obtain ⟨place, hplace⟩ := List.mem_iff_getElem?.1 hfirst
    obtain ⟨other, hother⟩ := List.mem_iff_getElem?.1 hsecond
    rw [h.node_id hplace, h.node_id hother]
    have hpairs : catalog.nodes.Pairwise fun first second =>
        NameBefore first.fullName second.fullName := List.pairwise_map.1 hnodes
    exact lt_iff_of_pairwise hpairs (fun _ _ => NameBefore.asymm) hplace hother

namespace Setup

variable [Scalar α] [Numeral α]

/-- The catalog of a text has the sites and nodes of the document that is read, and their numbers
follow their names. -/
theorem names_of_ofText {text : String} {setup : Setup α} (h : ofText text = .ok setup) :
    setup.catalog.Alphabetical ∧
      ∃ document : PlanningDocument α,
        (Yaml.parse? text).bind PlanningDocument.ofTree? = some document ∧
        setup.catalog.sites.map Site.name = document.siteNames ∧
        setup.catalog.nodes.map Node.fullName = document.nodeNames := by
  unfold ofText at h
  split at h
  · rename_i document hread
    obtain ⟨tree, -, htree⟩ := Option.bind_eq_some_iff.1 hread
    obtain ⟨hsites, hnodes⟩ := PlanningDocument.ascending_of_ofTree? htree
    obtain ⟨hwellFormed, hsiteNames, hnodeNames⟩ := PlanningDocument.names_of_setup h
    refine ⟨hwellFormed.alphabetical ?_ ?_, document, hread, hsiteNames, hnodeNames⟩
    · rw [hsiteNames]
      exact List.pairwise_map.2 hsites
    · rw [hnodeNames]
      exact PlanningDocument.nodeNames_pairwise hsites hnodes
  · cases h

/-- Two texts that differ only in the order in which sites are written, and at each site the nodes,
give the same catalog and settings or the same fault. Every catalog that a text gives has the sites
and nodes of the document that is read, and their numbers follow their names. -/
theorem ofText_reordered :
    (∀ {text other : String} {tree tree' : Tree α}, Yaml.parse? text = some tree →
      Yaml.parse? other = some tree' → PlanningDocument.Reordered tree tree' →
      (ofText text : Except (LoadFault α) (Setup α)) = ofText other) ∧
    ∀ {text : String} {setup : Setup α}, ofText text = .ok setup →
      setup.catalog.Alphabetical ∧
        ∃ document : PlanningDocument α,
          (Yaml.parse? text).bind PlanningDocument.ofTree? = some document ∧
          setup.catalog.sites.map Site.name = document.siteNames ∧
          setup.catalog.nodes.map Node.fullName = document.nodeNames := by
  refine ⟨fun htree htree' hreordered => ?_, names_of_ofText⟩
  unfold ofText
  rw [htree, htree', Option.bind_some, Option.bind_some,
    PlanningDocument.ofTree?_alike _ _ hreordered]

end Setup

/-!
## Two orders of writing

Planning documents of sites that are given by their names, prices and the names of their nodes. In
one of the two that are written in two orders each, a node has the name of another one and a site has
no prices.
-/

namespace Tree

mutual

/-- Are two trees the same, with unquoted scalars only? -/
def same : Tree α → Tree α → Bool
  | .plain written, .plain other => written = other
  | .sequence items, .sequence others => sameItems items others
  | .mapping entries, .mapping others => sameEntries entries others
  | _, _ => false

/-- Are the items of two sequences the same? -/
def sameItems : List (Tree α) → List (Tree α) → Bool
  | [], [] => true
  | item :: items, other :: others => same item other && sameItems items others
  | _, _ => false

/-- Are the entries of two mappings the same? -/
def sameEntries : List (String × Tree α) → List (String × Tree α) → Bool
  | [], [] => true
  | (key, value) :: entries, (otherKey, other) :: others =>
      key = otherKey && same value other && sameEntries entries others
  | _, _ => false

end

mutual

theorem eq_of_same : ∀ {tree other : Tree α}, same tree other = true → tree = other
  | .plain _, other, h => by
      cases other with
      | plain => exact congrArg _ (of_decide_eq_true h)
      | tagged | text | whole | quantity | sequence | mapping => cases h
  | .sequence _, other, h => by
      cases other with
      | sequence => exact congrArg _ (eq_of_sameItems h)
      | plain | tagged | text | whole | quantity | mapping => cases h
  | .mapping _, other, h => by
      cases other with
      | mapping => exact congrArg _ (eq_of_sameEntries h)
      | plain | tagged | text | whole | quantity | sequence => cases h

theorem eq_of_sameItems : ∀ {items others : List (Tree α)},
    sameItems items others = true → items = others
  | [], [], _ => rfl
  | item :: items, other :: others, h => by
      rw [sameItems, Bool.and_eq_true] at h
      rw [eq_of_same h.1, eq_of_sameItems h.2]

theorem eq_of_sameEntries : ∀ {entries others : List (String × Tree α)},
    sameEntries entries others = true → entries = others
  | [], [], _ => rfl
  | (key, value) :: entries, (otherKey, other) :: others, h => by
      rw [sameEntries, Bool.and_eq_true, Bool.and_eq_true] at h
      rw [of_decide_eq_true h.1.1, eq_of_same h.1.2, eq_of_sameEntries h.2]

end

end Tree

namespace TwoOrders

open PlanningDocument

/-- A site, with the names of its nodes, which all have one level. -/
structure Place where
  name : String
  prices : List String
  nodes : List String

def Place.text (place : Place) : String :=
  " " ++ place.name ++ ":\n  prices: [" ++ ", ".intercalate place.prices ++ "]\n  nodes:\n" ++
    String.join (place.nodes.map fun node =>
      "   " ++ node ++ ":\n    levels: [\x7bspeed: 2, power: 3\x7d]\n")

/-- The text of a document. -/
def text (places : List Place) : String :=
  "sites:\n" ++ String.join (places.map Place.text)

def nodeEntry (name : String) : String × Tree Float :=
  (name, .mapping
    [("levels", .sequence [.mapping [("speed", .plain "2"), ("power", .plain "3")]])])

def Place.entry (place : Place) : String × Tree Float :=
  (place.name, .mapping
    [("prices", .sequence (place.prices.map .plain)),
      ("nodes", .mapping (place.nodes.map nodeEntry))])

/-- The tree of a document. -/
def tree (places : List Place) : Tree Float :=
  .mapping [("sites", .mapping (places.map Place.entry))]

/-- Is the text of a document read as its tree? -/
def isRead (places : List Place) : Bool :=
  (Yaml.parse? (text places)).any (tree places).same

theorem parse_of_isRead {places : List Place} (h : isRead places = true) :
    Yaml.parse? (text places) = some (tree places) := by
  obtain ⟨read, hread, hsame⟩ := (Option.any_eq_true _ _).1 h
  rw [hread, Tree.eq_of_same hsame]

/-- A site whose nodes are written in another order. -/
structure Place.Shuffled (place other : Place) : Prop where
  name : place.name = other.name
  prices : place.prices = other.prices
  nodup : place.nodes.Nodup
  perm : place.nodes.Perm other.nodes

theorem Place.Shuffled.reordered {place other : Place} (h : place.Shuffled other) :
    SiteReordered place.entry.2 other.entry.2 := by
  have hkeys : (place.nodes.map nodeEntry).map Prod.fst = place.nodes := by
    rw [List.map_map]
    exact List.map_id _
  have hnodes : Tree.Permuted Eq (.mapping (place.nodes.map nodeEntry))
      (.mapping (other.nodes.map nodeEntry)) :=
    .mapping _ _ _ (hkeys.symm ▸ h.nodup) (List.forall₂_same.2 fun _ _ => ⟨rfl, rfl⟩)
      (h.perm.map nodeEntry)
  have hprices : (.sequence (place.prices.map .plain) : Tree Float) =
      .sequence (other.prices.map .plain) := by
    rw [h.prices]
  exact .mapping _ _ (.cons ⟨rfl, .inl hprices⟩ (.cons ⟨rfl, .inr ⟨rfl, hnodes⟩⟩ .nil))

theorem reordered {places related others : List Place} (hnodup : (places.map Place.name).Nodup)
    (h : List.Forall₂ Place.Shuffled places related) (hperm : related.Perm others) :
    Reordered (tree places) (tree others) := by
  have hkeys : (places.map Place.entry).map Prod.fst = places.map Place.name := by
    rw [List.map_map]
    rfl
  have hrelated : List.Forall₂ (fun entry other => entry.1 = other.1 ∧
      SiteReordered entry.2 other.2) (places.map Place.entry) (related.map Place.entry) := by
    rw [List.forall₂_map_left_iff, List.forall₂_map_right_iff]
    exact h.imp fun _ _ hshuffled => ⟨hshuffled.name, hshuffled.reordered⟩
  have hsites : Tree.Permuted SiteReordered (.mapping (places.map Place.entry))
      (.mapping (others.map Place.entry)) :=
    .mapping _ _ _ (hkeys.symm ▸ hnodup) hrelated (hperm.map Place.entry)
  exact .mapping _ _ (.cons ⟨rfl, .inr ⟨rfl, hsites⟩⟩ .nil)

/-- What the tree of a document gives. -/
def outcome (places : List Place) : Except (LoadFault Float) (Setup Float) :=
  match ofTree? (tree places) with
  | some document => document.setup
  | none => .error (.unreadable .planning)

theorem ofText_of_parse {places : List Place}
    (h : Yaml.parse? (text places) = some (tree places)) :
    Setup.ofText (text places) = outcome places := by
  rw [Setup.ofText, outcome, h, Option.bind_some]
  cases ofTree? (tree places) <;> rfl

/-- The names of the sites and nodes in the order of their numbers, if nothing is at fault. -/
def names? : Except (LoadFault Float) (Setup Float) → Option (List String × List (String × String))
  | .ok setup => some (setup.catalog.sites.map Site.name, setup.catalog.nodes.map Node.fullName)
  | .error _ => none

/-- What is at fault. -/
def fault? : Except (LoadFault Float) (Setup Float) → Option (LoadFault Float)
  | .ok _ => none
  | .error fault => some fault

theorem exists_of_names? {result : Except (LoadFault Float) (Setup Float)} {sites : List String}
    {nodes : List (String × String)} (h : names? result = some (sites, nodes)) :
    ∃ setup, result = .ok setup ∧ setup.catalog.sites.map Site.name = sites ∧
      setup.catalog.nodes.map Node.fullName = nodes := by
  cases result with
  | ok setup =>
      cases h
      exact ⟨setup, rfl, rfl, rfl⟩
  | error fault => cases h

theorem eq_error_of_fault? {result : Except (LoadFault Float) (Setup Float)}
    {fault : LoadFault Float} (h : fault? result = some fault) : result = .error fault := by
  cases result with
  | ok setup => cases h
  | error other =>
      cases h
      rfl

def west : Place := ⟨"west", ["3", "2"], ["w2", "w1"]⟩

/-- The western site with its nodes in the other order. -/
def west' : Place := ⟨"west", ["3", "2"], ["w1", "w2"]⟩

def east : Place := ⟨"east", ["1"], ["e"]⟩

/-- A site with a node that has the name of one of the eastern site. -/
def annex : Place := ⟨"annex", ["1"], ["e"]⟩

/-- A site without prices. -/
def closed : Place := ⟨"closed", [], ["c"]⟩

/-- Two sites and three nodes get the same numbers in both orders, and of two faults that a document
has at once the same one is found. -/
theorem numbers_and_faults_stay :
    Yaml.parse? (text [west, east]) = some (tree [west, east]) ∧
    Yaml.parse? (text [east, west']) = some (tree [east, west']) ∧
    Reordered (tree [west, east]) (tree [east, west']) ∧
    Setup.ofText (text [west, east]) = Setup.ofText (α := Float) (text [east, west']) ∧
    (∃ setup : Setup Float, Setup.ofText (text [west, east]) = .ok setup ∧
      setup.catalog.sites.map Site.name = ["east", "west"] ∧
      setup.catalog.nodes.map Node.fullName = [("east", "e"), ("west", "w1"), ("west", "w2")] ∧
      setup.catalog.Alphabetical) ∧
    Reordered (tree [annex, east, closed]) (tree [closed, east, annex]) ∧
    Setup.ofText (text [annex, east, closed]) =
      Setup.ofText (α := Float) (text [closed, east, annex]) ∧
    Setup.ofText (text [annex, east, closed]) =
      .error (.during (.tariffOf "closed") (.model .emptyTariff) : LoadFault Float) := by
  have hwest : Yaml.parse? (text [west, east]) = some (tree [west, east]) :=
    parse_of_isRead (by decide +kernel)
  have heast : Yaml.parse? (text [east, west']) = some (tree [east, west']) :=
    parse_of_isRead (by decide +kernel)
  have hannex : Yaml.parse? (text [annex, east, closed]) = some (tree [annex, east, closed]) :=
    parse_of_isRead (by decide +kernel)
  have hclosed : Yaml.parse? (text [closed, east, annex]) = some (tree [closed, east, annex]) :=
    parse_of_isRead (by decide +kernel)
  have hwestern : west.Shuffled west' := ⟨rfl, rfl, by decide, .swap "w1" "w2" []⟩
  have hsites : Reordered (tree [west, east]) (tree [east, west']) :=
    reordered (by decide) (.cons hwestern (.cons ⟨rfl, rfl, by decide, .refl _⟩ .nil))
      (.swap east west' [])
  have hfaulty : Reordered (tree [annex, east, closed]) (tree [closed, east, annex]) := by
    refine reordered (by decide) (List.forall₂_same.2 fun place hplace => ?_)
      (List.reverse_perm [annex, east, closed]).symm
    have hnodup : ∀ place ∈ [annex, east, closed], place.nodes.Nodup := by decide
    exact ⟨rfl, rfl, hnodup place hplace, .refl _⟩
  obtain ⟨hsame, hcatalog⟩ := Setup.ofText_reordered (α := Float)
  have hfound : names? (outcome [west, east]) =
      some (["east", "west"], [("east", "e"), ("west", "w1"), ("west", "w2")]) := by
    decide +kernel
  obtain ⟨setup, hsetup, hnames⟩ := exists_of_names? hfound
  have hfault : outcome [annex, east, closed] =
      .error (.during (.tariffOf "closed") (.model .emptyTariff)) :=
    eq_error_of_fault? (by decide +kernel)
  have hread := (ofText_of_parse hwest).trans hsetup
  exact ⟨hwest, heast, hsites, hsame hwest heast hsites,
    ⟨setup, hread, hnames.1, hnames.2, (hcatalog hread).1⟩, hfaulty, hsame hannex hclosed hfaulty, (ofText_of_parse hannex).trans hfault⟩

end TwoOrders

end WattPlan
