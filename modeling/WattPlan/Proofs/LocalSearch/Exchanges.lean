import Mathlib.Data.List.GetD
import Mathlib.Data.Set.List
import Mathlib.GroupTheory.Perm.Sign
import WattPlan.LocalSearch
import WattPlan.Proofs.Samples
import WattPlan.Proofs.Traversals

/-!
# Exchanges in an order

To exchange two jobs of an order is to map it by their transposition, so exchanges one after another
map it by a product of transpositions (`exchangeAll_eq_map`) and leave it as it is just when that
product is 1 (`exchangeAll_eq_self_iff`). A product of transpositions is not 1 if there is an odd
number of them (`even_length_of_transpositions_eq_one`) or if a job is in just one of them
(`transpositions_apply_ne`). A perturbation exchanges two members of each group that it picks:
`perturb_exchanges`.
-/

namespace WattPlan

open Draw

namespace LocalSearch

section Transpositions

variable {β : Type} [DecidableEq β] {pairs before after : List (β × β)} {pair : β × β} {x : β}

/-- The permutation that exchanges pairs one after another, the first pair first. -/
def transpositions : List (β × β) → Equiv.Perm β
  | [] => 1
  | pair :: rest => transpositions rest * Equiv.swap pair.1 pair.2

/-- The pairs of two lists are exchanged one list after the other. -/
theorem transpositions_append (before after : List (β × β)) :
    transpositions (before ++ after) = transpositions after * transpositions before := by
  induction before with
  | nil => exact (mul_one _).symm
  | cons pair before ih => rw [List.cons_append, transpositions, transpositions, ih, mul_assoc]

/-- Exchanges of things that agree in a key keep the key. -/
theorem transpositions_apply_of_agree {γ : Type} (key : β → γ)
    (h : ∀ pair ∈ pairs, key pair.1 = key pair.2) (x : β) :
    key (transpositions pairs x) = key x := by
  induction pairs generalizing x with
  | nil => rfl
  | cons pair pairs ih =>
      rw [List.forall_mem_cons] at h
      rw [transpositions, Equiv.Perm.mul_apply, ih h.2, Equiv.swap_apply_def]
      split
      · rename_i heq
        rw [heq, h.1]
      · split
        · rename_i heq
          rw [heq, h.1]
        · rfl

/-- What is in no pair stays where it is. -/
theorem transpositions_apply_of_not_mem (h : ∀ pair ∈ pairs, x ≠ pair.1 ∧ x ≠ pair.2) :
    transpositions pairs x = x := by
  induction pairs with
  | nil => rfl
  | cons pair pairs ih =>
      rw [List.forall_mem_cons] at h
      rw [transpositions, Equiv.Perm.mul_apply, Equiv.swap_apply_of_ne_of_ne h.1.1 h.1.2, ih h.2]

/-- What one pair moves and no other pair holds is moved. -/
theorem transpositions_apply_ne (hmoved : Equiv.swap pair.1 pair.2 x ≠ x)
    (hothers : ∀ other ∈ before ++ after, x ≠ other.1 ∧ x ≠ other.2) :
    transpositions (before ++ pair :: after) x ≠ x := by
  rw [List.forall_mem_append] at hothers
  have hafter : transpositions after x = x := transpositions_apply_of_not_mem hothers.2
  rw [transpositions_append, transpositions, Equiv.Perm.mul_apply, Equiv.Perm.mul_apply,
    transpositions_apply_of_not_mem hothers.1]
  intro hback
  exact hmoved ((transpositions after).injective (hback.trans hafter.symm))

/-- The product of transpositions is even just when their number is. -/
theorem sign_transpositions_eq_one_iff [Fintype β] (h : ∀ pair ∈ pairs, pair.1 ≠ pair.2) :
    Equiv.Perm.sign (transpositions pairs) = 1 ↔ Even pairs.length := by
  induction pairs with
  | nil => exact iff_of_true Equiv.Perm.sign_one Even.zero
  | cons pair pairs ih =>
      rw [List.forall_mem_cons] at h
      rw [transpositions, Equiv.Perm.sign_mul, Equiv.Perm.sign_swap h.1, mul_neg_one,
        List.length_cons, Nat.even_add_one, ← ih h.2]
      rcases Int.units_eq_one_or (Equiv.Perm.sign (transpositions pairs)) with hsign | hsign <;>
        rw [hsign] <;> decide

/-- Renamed pairs exchange the names. -/
theorem transpositions_map {γ : Type} [DecidableEq γ] {name : γ → β}
    (hname : Function.Injective name) (pairs : List (γ × γ)) (x : γ) :
    transpositions (pairs.map (Prod.map name name)) (name x) = name (transpositions pairs x) := by
  induction pairs generalizing x with
  | nil => rfl
  | cons pair pairs ih =>
      rw [List.map_cons, transpositions, transpositions, Equiv.Perm.mul_apply,
        Equiv.Perm.mul_apply, Prod.map_fst, Prod.map_snd, ← hname.map_swap, ih]

/-- Exchanges of distinct things that come to nothing are even in number. -/
theorem even_length_of_transpositions_eq_one (hpairs : ∀ pair ∈ pairs, pair.1 ≠ pair.2)
    (hone : transpositions pairs = 1) : Even pairs.length := by
  -- The sign is that of a permutation of the finitely many things in the pairs.
  obtain ⟨members, hmembers⟩ : ∃ members : Finset β,
      ∀ pair ∈ pairs, pair.1 ∈ members ∧ pair.2 ∈ members := by
    refine ⟨(pairs.map Prod.fst ++ pairs.map Prod.snd).toFinset, fun pair hpair => ?_⟩
    rw [List.mem_toFinset, List.mem_toFinset, List.mem_append, List.mem_append]
    exact ⟨.inl (List.mem_map_of_mem hpair), .inr (List.mem_map_of_mem hpair)⟩
  obtain ⟨lifted, rfl⟩ : pairs ∈ Set.range
      (List.map (Prod.map Subtype.val Subtype.val : members × members → β × β)) := by
    rw [Set.range_list_map]
    exact fun pair hpair =>
      ⟨⟨⟨pair.1, (hmembers pair hpair).1⟩, ⟨pair.2, (hmembers pair hpair).2⟩⟩, rfl⟩
  have hlifted : transpositions lifted = 1 := by
    ext x
    rw [← transpositions_map Subtype.val_injective, hone]
    rfl
  have hdistinct : ∀ pair ∈ lifted, pair.1 ≠ pair.2 := fun pair hpair heq =>
    hpairs _ (List.mem_map_of_mem hpair) (congrArg Subtype.val heq)
  rw [List.length_map, ← sign_transpositions_eq_one_iff hdistinct, hlifted, Equiv.Perm.sign_one]

end Transpositions

/-- The order after exchanges of pairs one after another. -/
def exchangeAll (order : List JobId) (pairs : List (JobId × JobId)) : List JobId :=
  pairs.foldl (fun order pair => exchange order pair.1 pair.2) order

variable {order : List JobId} {pairs : List (JobId × JobId)}

/-- To exchange two jobs of an order is to map it by their transposition. -/
theorem exchange_eq_map (hnodup : order.Nodup) {a b : JobId} (ha : a ∈ order) (hb : b ∈ order) :
    exchange order a b = order.map (Equiv.swap a b) := by
  have hfirst := List.idxOf_lt_length_of_mem ha
  have hsecond := List.idxOf_lt_length_of_mem hb
  have hplace : ∀ c place (h : place < order.length),
      order.idxOf c = place ↔ order[place] = c := by
    intro c place h
    constructor
    · rintro rfl
      exact List.getElem_idxOf h
    · rintro rfl
      exact hnodup.idxOf_getElem place h
  unfold exchange Generator.swapAt
  rw [List.getElem?_eq_getElem hfirst, List.getElem?_eq_getElem hsecond, List.getElem_idxOf,
    List.getElem_idxOf]
  refine List.ext_getElem (by simp) fun place hleft hright => ?_
  rw [List.length_map] at hright
  rw [List.getElem_set, List.getElem_set, List.getElem_map, Equiv.swap_apply_def]
  simp only [hplace a place hright, hplace b place hright]
  split_ifs with hisb hisa <;> simp_all

/-- Exchanges one after another map an order by the product of their transpositions. -/
theorem exchangeAll_eq_map (hnodup : order.Nodup)
    (hpairs : ∀ pair ∈ pairs, pair.1 ∈ order ∧ pair.2 ∈ order) :
    exchangeAll order pairs = order.map (transpositions pairs) := by
  induction pairs generalizing order with
  | nil => exact (List.map_id order).symm
  | cons pair pairs ih =>
      rw [List.forall_mem_cons] at hpairs
      have hperm : (exchange order pair.1 pair.2).Perm order := Generator.swapAt_perm order _ _
      have hrest := ih (hperm.nodup_iff.2 hnodup) fun other hother => by
        rw [hperm.mem_iff, hperm.mem_iff]
        exact hpairs.2 other hother
      rw [exchange_eq_map hnodup hpairs.1.1 hpairs.1.2, List.map_map] at hrest
      rw [exchangeAll, List.foldl_cons, exchange_eq_map hnodup hpairs.1.1 hpairs.1.2]
      exact hrest

/-- A job that is in no pair keeps its place. -/
theorem getElem?_exchangeAll (hnodup : order.Nodup)
    (hpairs : ∀ pair ∈ pairs, pair.1 ∈ order ∧ pair.2 ∈ order) {place : Nat} {id : JobId}
    (hid : order[place]? = some id) (hfree : ∀ pair ∈ pairs, id ≠ pair.1 ∧ id ≠ pair.2) :
    (exchangeAll order pairs)[place]? = some id := by
  rw [exchangeAll_eq_map hnodup hpairs, List.getElem?_map, hid, Option.map_some,
    transpositions_apply_of_not_mem hfree]

/-- Exchanges of jobs that agree in a key keep the key at every place. -/
theorem map_exchangeAll (hnodup : order.Nodup)
    (hpairs : ∀ pair ∈ pairs, pair.1 ∈ order ∧ pair.2 ∈ order) {γ : Type} (key : JobId → γ)
    (hagree : ∀ pair ∈ pairs, key pair.1 = key pair.2) :
    (exchangeAll order pairs).map key = order.map key := by
  rw [exchangeAll_eq_map hnodup hpairs, List.map_map]
  exact List.map_congr_left fun id _ => transpositions_apply_of_agree key hagree id

/-- Exchanges leave an order as it is just when the product of their transpositions is 1. -/
theorem exchangeAll_eq_self_iff (hnodup : order.Nodup)
    (hpairs : ∀ pair ∈ pairs, pair.1 ∈ order ∧ pair.2 ∈ order) :
    exchangeAll order pairs = order ↔ transpositions pairs = 1 := by
  rw [exchangeAll_eq_map hnodup hpairs]
  constructor
  · intro hsame
    have hfixed : ∀ job ∈ order, transpositions pairs job = job :=
      List.map_inj_left.1 (hsame.trans (List.map_id order).symm)
    ext job
    by_cases hjob : job ∈ order
    · rw [hfixed job hjob, Equiv.Perm.one_apply]
    · refine transpositions_apply_of_not_mem fun pair hpair => ⟨?_, ?_⟩
      · rintro rfl
        exact hjob (hpairs pair hpair).1
      · rintro rfl
        exact hjob (hpairs pair hpair).2
  · intro hone
    rw [hone]
    exact List.map_id order

/-- Two distinct members of a group. -/
structure DrawnFrom (group : List JobId) (pair : JobId × JobId) : Prop where
  first : pair.1 ∈ group
  second : pair.2 ∈ group
  distinct : pair.1 ≠ pair.2

/-- What is not in the group is neither of the two. -/
theorem DrawnFrom.ne_of_not_mem {group : List JobId} {pair : JobId × JobId} {id : JobId}
    (h : DrawnFrom group pair) (hid : id ∉ group) : id ≠ pair.1 ∧ id ≠ pair.2 := by
  constructor
  · rintro rfl
    exact hid h.first
  · rintro rfl
    exact hid h.second

/-- In a group of more than one job, two distinct members are exchanged. -/
theorem exchangeIn_exchanges {group : List JobId} (hnodup : group.Nodup)
    (hlength : 1 < group.length) (order : List JobId) :
    Yields (exchangeIn order group) fun result =>
      ∃ pair, DrawnFrom group pair ∧ result = exchange order pair.1 pair.2 := by
  unfold exchangeIn
  rw [if_neg (Nat.not_lt.2 hlength)]
  refine (Generator.below_yields (Nat.zero_lt_of_lt hlength)).bind fun a ha => ?_
  refine (Generator.below_yields (Nat.sub_pos_of_lt hlength)).bind fun drawn hdrawn => ?_
  -- The second place skips the first one.
  obtain ⟨b, hb, hlt, hne⟩ : ∃ b, (if a ≤ drawn then drawn + 1 else drawn) = b ∧
      b < group.length ∧ a ≠ b := by
    refine ⟨_, rfl, ?_⟩
    split <;> omega
  dsimp only
  rw [hb, List.getElem?_eq_getElem ha, List.getElem?_eq_getElem hlt]
  refine Yields.pure ⟨⟨group[a], group[b]⟩, ?_, rfl⟩
  exact ⟨List.getElem_mem ha, List.getElem_mem hlt, fun heq => hne (hnodup.getElem_inj_iff.1 heq)⟩

/-- In each of several groups, one after another, two distinct members are exchanged. -/
theorem foldlM_exchangeIn_exchanges {groups : List (List JobId)}
    (hgroups : ∀ group ∈ groups, group.Nodup ∧ 1 < group.length) (order : List JobId) :
    Yields (groups.foldlM exchangeIn order) fun result =>
      ∃ pairs, List.Forall₂ DrawnFrom groups pairs ∧ result = exchangeAll order pairs := by
  induction groups generalizing order with
  | nil => exact Yields.pure ⟨[], .nil, rfl⟩
  | cons group groups ih =>
      rw [List.forall_mem_cons] at hgroups
      rw [List.foldlM_cons]
      refine (exchangeIn_exchanges hgroups.1.1 hgroups.1.2 order).bind fun next hnext => ?_
      obtain ⟨pair, hpair, rfl⟩ := hnext
      intro generator
      obtain ⟨pairs, hpairs, hresult⟩ :=
        ih hgroups.2 (exchange order pair.1 pair.2) generator
      exact ⟨pair :: pairs, .cons hpair hpairs, hresult⟩

/-- The places of the groups that a perturbation picks. -/
def pickedPlaces (groups : List (List JobId)) (count : Nat) (generator : Generator) : List Nat :=
  ((Generator.sample groups.length (min count groups.length)).run generator).1

/-- The groups that a perturbation picks. -/
def pickedGroups (groups : List (List JobId)) (count : Nat) (generator : Generator) :
    List (List JobId) :=
  (pickedPlaces groups count generator).map fun place => groups.getD place []

/-- A perturbation picks groups at distinct places, as many as it is to perturb if there are so
many. -/
theorem pickedPlaces_isSample (groups : List (List JobId)) (count : Nat) (generator : Generator) :
    Generator.IsSample groups.length (min count groups.length)
      (pickedPlaces groups count generator) :=
  Generator.sample_yields (Nat.min_le_right _ _) generator

/-- A picked group is one of the groups. -/
theorem mem_of_mem_pickedGroups {groups : List (List JobId)} {count : Nat} {generator : Generator}
    {group : List JobId} (h : group ∈ pickedGroups groups count generator) : group ∈ groups := by
  obtain ⟨place, hplace, rfl⟩ := List.mem_map.1 h
  have hlt := (pickedPlaces_isSample groups count generator).lt place hplace
  rw [List.getD_eq_getElem _ _ hlt]
  exact List.getElem_mem hlt

/-- Where groups have no jobs in common, neither have the picked ones. -/
theorem pickedGroups_disjoint {groups : List (List JobId)} (h : groups.Pairwise List.Disjoint)
    (count : Nat) (generator : Generator) :
    (pickedGroups groups count generator).Pairwise List.Disjoint := by
  have hsample := pickedPlaces_isSample groups count generator
  rw [pickedGroups, List.pairwise_map]
  refine List.Pairwise.imp_of_mem (fun {i j} hi hj hne => ?_) hsample.nodup
  have hfirst := hsample.lt i hi
  have hsecond := hsample.lt j hj
  rw [List.getD_eq_getElem _ _ hfirst, List.getD_eq_getElem _ _ hsecond]
  rcases Nat.lt_or_gt_of_ne hne with hlt | hgt
  · exact List.pairwise_iff_getElem.1 h i j hfirst hsecond hlt
  · exact (List.pairwise_iff_getElem.1 h j i hsecond hfirst hgt).symm

/-- A perturbation exchanges two distinct members of each group that it picks, one group after
another. -/
theorem perturb_exchanges {groups : List (List JobId)}
    (hgroups : ∀ group ∈ groups, group.Nodup ∧ 1 < group.length) (order : List JobId)
    (count : Nat) (generator : Generator) :
    ∃ pairs, List.Forall₂ DrawnFrom (pickedGroups groups count generator) pairs ∧
      ((perturb order groups count).run generator).1 = exchangeAll order pairs := by
  unfold perturb
  dsimp only
  split
  · rename_i hnone
    have hlength := (pickedPlaces_isSample groups count generator).length
    rw [hnone, List.length_eq_zero_iff] at hlength
    refine ⟨[], ?_, rfl⟩
    rw [pickedGroups, hlength]
    exact .nil
  · rw [run_bind]
    have hpicked : ∀ group ∈ pickedGroups groups count generator, group.Nodup ∧ 1 < group.length :=
      fun group hgroup => hgroups group (mem_of_mem_pickedGroups hgroup)
    exact foldlM_exchangeIn_exchanges hpicked order _

/-- One of the groups has at most one job in common with the others: of any two of its jobs, one is
in no other group. -/
def HasLoose (groups : List (List JobId)) : Prop :=
  ∃ before group after, groups = before ++ group :: after ∧
    ∀ a ∈ group, ∀ b ∈ group, a ≠ b →
      (∀ other ∈ before ++ after, a ∉ other) ∨ ∀ other ∈ before ++ after, b ∉ other

/-- Exchanges in groups of which one has at most one job in common with the others do not undo one
another: one of the two jobs that are exchanged in it is in no other pair. -/
theorem HasLoose.transpositions_ne_one {groups : List (List JobId)} (h : HasLoose groups)
    (hpairs : List.Forall₂ DrawnFrom groups pairs) : transpositions pairs ≠ 1 := by
  obtain ⟨before, group, after, rfl, hloose⟩ := h
  have hfront := List.forall₂_take_append pairs before (group :: after) hpairs.flip
  have hback := List.forall₂_drop_append pairs before (group :: after) hpairs.flip
  obtain ⟨pair, rest, hpair, hrest, hsplit⟩ := List.forall₂_cons_right_iff.1 hback
  have hothers : ∀ id, (∀ other ∈ before ++ after, id ∉ other) →
      ∀ other ∈ pairs.take before.length ++ rest, id ≠ other.1 ∧ id ≠ other.2 := by
    intro id hfree other hother
    obtain ⟨source, hsource, hdrawn⟩ :=
      forall₂_exists_right (List.rel_append hfront hrest) hother
    exact DrawnFrom.ne_of_not_mem hdrawn (hfree source hsource)
  have hpairs : pairs = pairs.take before.length ++ pair :: rest := by
    rw [← hsplit, List.take_append_drop]
  intro hone
  rw [hpairs] at hone
  rcases hloose pair.1 hpair.first pair.2 hpair.second hpair.distinct with hfree | hfree
  · refine transpositions_apply_ne ?_ (hothers pair.1 hfree) (by rw [hone]; rfl)
    rw [Equiv.swap_apply_left]
    exact hpair.distinct.symm
  · refine transpositions_apply_ne ?_ (hothers pair.2 hfree) (by rw [hone]; rfl)
    rw [Equiv.swap_apply_right]
    exact hpair.distinct

end LocalSearch

end WattPlan
