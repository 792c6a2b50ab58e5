import Mathlib.Data.List.Perm.Basic
import WattPlan.PlanningDocument
import WattPlan.Proofs.SortedEntries
import WattPlan.Proofs.Traversals

/-!
# Reordered documents

Two trees of a planning document are reordered if they differ only in the order in which the sites
are written and, at each site, the nodes (`Reordered`). Sites and nodes are sorted by name before
anything is made of them, so a reordered tree is read as the same document, or cannot be read just as
the other one cannot: `ofTree?_alike`.
-/

namespace WattPlan

namespace Tree

variable {α β γ : Type} {R : Tree α → Tree α → Prop}

/-- Entries with one key, whose values are equal or, under a given key, related. -/
def SameBut (key : String) (R : Tree α → Tree α → Prop) (entry other : String × Tree α) : Prop :=
  entry.1 = other.1 ∧ (entry.2 = other.2 ∨ entry.1 = key ∧ R entry.2 other.2)

/-- The same tree, or a mapping in which what stands under one key may have been replaced by something
related. -/
inductive Under (key : String) (R : Tree α → Tree α → Prop) : Tree α → Tree α → Prop where
  | refl (tree) : Under key R tree tree
  | mapping (entries others) : List.Forall₂ (SameBut key R) entries others →
      Under key R (.mapping entries) (.mapping others)

/-- The same tree, or a mapping of distinct keys in another order, each of whose values may have been
replaced by a related one. -/
inductive Permuted (R : Tree α → Tree α → Prop) : Tree α → Tree α → Prop where
  | refl (tree) : Permuted R tree tree
  | mapping (entries related others) : (entries.map Prod.fst).Nodup →
      List.Forall₂ (fun entry other => entry.1 = other.1 ∧ R entry.2 other.2) entries related →
      related.Perm others → Permuted R (.mapping entries) (.mapping others)

/-- A reader that makes the same of related trees. -/
def Alike (R : Tree α → Tree α → Prop) (read : Tree α → Option β) : Prop :=
  ∀ tree other, R tree other → read tree = read other

/-- Entries that agree in their keys one by one have the same keys. -/
theorem keys_eq {entries : List (String × β)} {others : List (String × γ)}
    (h : List.Forall₂ (fun entry other => entry.1 = other.1) entries others) :
    entries.map Prod.fst = others.map Prod.fst := by
  induction h with
  | nil => rfl
  | cons hfirst _ ih => rw [List.map_cons, List.map_cons, hfirst, ih]

/-! ### Records -/

section Fields

variable {key : String} {entries others : List (String × Tree α)}

/-- What is found under a key is the same, or related under the key where values may differ. -/
theorem lookup_eq_or (h : List.Forall₂ (SameBut key R) entries others) (field : String) :
    entries.lookup field = others.lookup field ∨ field = key ∧ ∃ tree other,
      entries.lookup field = some tree ∧ others.lookup field = some other ∧ R tree other := by
  induction h with
  | nil => exact .inl rfl
  | @cons entry other entries others hfirst _ ih =>
      obtain ⟨name, tree⟩ := entry
      obtain ⟨other, tree'⟩ := other
      obtain ⟨hname, hvalue⟩ := hfirst
      dsimp only at hname hvalue
      subst hname
      rw [List.lookup_cons, List.lookup_cons]
      cases hfield : field == name with
      | false => exact ih
      | true =>
          rcases hvalue with rfl | ⟨rfl, hrelated⟩
          · exact .inl rfl
          · exact .inr ⟨eq_of_beq hfield, tree, tree', rfl, rfl, hrelated⟩

/-- A required field is read alike, if related values are where they may differ. -/
theorem required_eq (h : List.Forall₂ (SameBut key R) entries others) {field : String}
    {read : Tree α → Option β} (hread : field = key → Alike R read) :
    required field read entries = required field read others := by
  unfold required
  rcases lookup_eq_or h field with hsame | ⟨hfield, tree, other, htree, hother, hrelated⟩
  · rw [hsame]
  · rw [htree, hother]
    exact hread hfield tree other hrelated

/-- A field with a default is read alike, if related values are where they may differ. -/
theorem withDefault_eq (h : List.Forall₂ (SameBut key R) entries others) {field : String}
    {standard : β} {read : Tree α → Option β} (hread : field = key → Alike R read) :
    withDefault field standard read entries = withDefault field standard read others := by
  unfold withDefault
  rcases lookup_eq_or h field with hsame | ⟨hfield, tree, other, htree, hother, hrelated⟩
  · rw [hsame]
  · rw [htree, hother]
    exact hread hfield tree other hrelated

/-- An optional field is read alike where values may not differ. -/
theorem optional_eq (h : List.Forall₂ (SameBut key R) entries others) {field : String}
    (hfield : field ≠ key) (read : Tree α → Option β) :
    optional field read entries = optional field read others := by
  have hsame := (lookup_eq_or h field).resolve_right fun hother => hfield hother.1
  unfold optional
  rw [hsame]

/-- A reader of records makes the same of records that are the same but for some values, if it makes
the same of their entries. -/
theorem record?_alike {allowed : List String} {next : List (String × Tree α) → Option γ}
    (hnext : ∀ entries others, List.Forall₂ (SameBut key R) entries others →
      next entries = next others) :
    Alike (Under key R) fun tree => (tree.record? allowed).bind next := by
  intro tree other hunder
  cases hunder with
  | refl => rfl
  | mapping entries others h =>
      have hrecord : ∀ entries : List (String × Tree α), (mapping entries).record? allowed =
          if (entries.map Prod.fst).all allowed.contains ∧ (entries.map Prod.fst).Nodup then
            some entries
          else none := fun _ => rfl
      dsimp only
      rw [hrecord, hrecord, keys_eq (h.imp fun _ _ hsame => hsame.1)]
      split
      · exact hnext entries others h
      · rfl

end Fields

/-! ### Mappings by name -/

/-- Traversing entries of related values that are read alike gives the same. -/
theorem mapM_eq {read : Tree α → Option β} (hread : Alike R read)
    {entries others : List (String × Tree α)}
    (h : List.Forall₂ (fun entry other => entry.1 = other.1 ∧ R entry.2 other.2) entries others) :
    (entries.mapM fun (key, value) => (read value).map (key, ·)) =
      others.mapM fun (key, value) => (read value).map (key, ·) := by
  induction h with
  | nil => rfl
  | @cons entry other _ _ hfirst _ ih =>
      obtain ⟨name, tree⟩ := entry
      obtain ⟨other, tree'⟩ := other
      obtain ⟨hname, hvalue⟩ := hfirst
      dsimp only at hname hvalue
      rw [List.mapM_cons, List.mapM_cons, ih]
      dsimp only
      rw [hname, hread tree tree' hvalue]

/-- Traversing a list in another order gives the same results in another order, or nothing as
before. -/
theorem mapM_perm {f : γ → Option β} {xs ys : List γ} (h : xs.Perm ys) :
    (∃ results others, xs.mapM f = some results ∧ ys.mapM f = some others ∧
      results.Perm others) ∨ xs.mapM f = none ∧ ys.mapM f = none := by
  have hsome : ∀ {xs ys : List γ} {results : List β}, xs.Perm ys → xs.mapM f = some results →
      ∃ others, ys.mapM f = some others ∧ results.Perm others := by
    intro xs ys results hperm hresults
    obtain ⟨others, hothers, hsame⟩ :=
      List.perm_comp_forall₂ hperm.symm (mapM_eq_some_iff.1 hresults)
    exact ⟨others, mapM_eq_some_iff.2 hothers, hsame.symm⟩
  cases hxs : xs.mapM f with
  | some results =>
      obtain ⟨others, hothers, hperm⟩ := hsome h hxs
      exact .inl ⟨results, others, rfl, hothers, hperm⟩
  | none =>
      cases hys : ys.mapM f with
      | none => exact .inr ⟨rfl, rfl⟩
      | some others =>
          obtain ⟨results, hresults, -⟩ := hsome h.symm hys
          rw [hxs] at hresults
          cases hresults

/-- What is read of entries stands under their keys. -/
theorem keys_of_mapM {read : Tree α → Option β} {entries : List (String × Tree α)}
    {results : List (String × β)}
    (h : (entries.mapM fun (key, value) => (read value).map (key, ·)) = some results) :
    results.map Prod.fst = entries.map Prod.fst := by
  refine (keys_eq ((mapM_eq_some_iff.1 h).imp fun entry result hresult => ?_)).symm
  obtain ⟨value, -, rfl⟩ := Option.map_eq_some_iff.1 hresult
  rfl

end Tree

namespace PlanningDocument

open WattPlan.Tree

variable {α β : Type} {R : Tree α → Tree α → Prop}

/-- A mapping that is sorted by key is read alike in every order. -/
theorem sortedMapOf?_alike {read : Tree α → Option β} (hread : Alike R read) :
    Alike (Permuted R) (sortedMapOf? read) := by
  intro tree other hpermuted
  cases hpermuted with
  | refl => rfl
  | mapping entries related others hnodup hrelated hperm =>
      have hsorted : ∀ entries : List (String × Tree α), sortedMapOf? read (mapping entries) =
          Option.map sortEntries (entries.mapM fun (key, value) => (read value).map (key, ·)) :=
        fun _ => rfl
      rw [hsorted, hsorted, mapM_eq hread hrelated]
      rcases mapM_perm hperm (f := fun (key, value) => (read value).map (key, ·)) with
        ⟨results, results', hresults, hresults', hsame⟩ | ⟨hresults, hresults'⟩
      · rw [hresults, hresults']
        have hkeys : (results.map Prod.fst).Nodup := by
          rw [keys_of_mapM hresults]
          exact keys_eq (hrelated.imp fun _ _ hsame => hsame.1) ▸ hnodup
        exact congrArg some (sortEntries_eq_of_perm hkeys hsame)
      · rw [hresults, hresults']

/-- Two trees of a site that differ at most in the order of its nodes. -/
def SiteReordered : Tree α → Tree α → Prop :=
  Under "nodes" (Permuted Eq)

/-- Two trees of a document that differ at most in the order of the sites and of their nodes. -/
def Reordered : Tree α → Tree α → Prop :=
  Under "sites" (Permuted SiteReordered)

variable [Scalar α] [Numeral α]

/-- A reordered site is read as the same one. -/
theorem siteOfTree?_alike : Alike SiteReordered (siteOfTree? (α := α)) := by
  have hnodes : Alike (Permuted Eq) (sortedMapOf? (nodeOfTree? (α := α))) :=
    sortedMapOf?_alike fun _ _ => congrArg _
  refine record?_alike fun entries others h => ?_
  rw [required_eq h (by simp), withDefault_eq h fun _ => hnodes]

/-- A reordered document is read as the same one. -/
theorem ofTree?_alike : Alike Reordered (ofTree? (α := α)) := by
  have hsites : Alike (Permuted SiteReordered) (sortedMapOf? (siteOfTree? (α := α))) :=
    sortedMapOf?_alike siteOfTree?_alike
  refine record?_alike fun entries others h => ?_
  rw [optional_eq h (by simp), required_eq h fun _ => hsites, withDefault_eq h (by simp)]

end PlanningDocument

end WattPlan
