import WattPlan.Yaml.Tree

/-!
# Entries sorted by key

Sorting entries by key leaves them in ascending order (`sortEntries_ascending`), and where no two of
them share a key it leaves all of them (`sortEntries_perm`). So what it gives does not depend on the
order that they were in: `sortEntries_eq_of_perm`.
-/

namespace WattPlan.Tree

variable {β : Type} {key : String} {value : β} {entries others : List (String × β)}

/-- Entries with ascending keys. -/
def Ascending (entries : List (String × β)) : Prop :=
  entries.Pairwise fun first second => first.1 < second.1

/-- Of two keys that differ one is smaller. -/
theorem lt_of_ne_of_not_lt {a b : String} (hne : a ≠ b) (hlt : ¬ a < b) : b < a :=
  Decidable.byContradiction fun hgt =>
    hne (String.le_antisymm (String.not_lt.1 hgt) (String.not_lt.1 hlt))

/-- An entry of a list into which one was put is that one or was there before. -/
theorem mem_insertEntry {entry : String × β} (h : entry ∈ insertEntry key value entries) :
    entry = (key, value) ∨ entry ∈ entries := by
  induction entries with
  | nil => exact .inl (List.mem_singleton.1 h)
  | cons first rest ih =>
      rw [insertEntry] at h
      split at h
      · exact List.mem_cons.1 h
      · split at h
        · exact (List.mem_cons.1 h).imp_right (List.mem_cons_of_mem _)
        · rcases List.mem_cons.1 h with rfl | h
          · exact .inr List.mem_cons_self
          · exact (ih h).imp_right (List.mem_cons_of_mem _)

/-- Putting in an entry keeps keys ascending. -/
theorem Ascending.insertEntry (h : Ascending entries) (key : String) (value : β) :
    Ascending (insertEntry key value entries) := by
  induction entries with
  | nil => exact List.pairwise_singleton _ _
  | cons first rest ih =>
      obtain ⟨hfirst, hrest⟩ := List.pairwise_cons.1 h
      rw [Tree.insertEntry]
      split
      · rename_i hlt
        refine List.pairwise_cons.2 ⟨fun entry hentry => ?_, h⟩
        rcases List.mem_cons.1 hentry with rfl | hentry
        · exact hlt
        · exact String.lt_trans hlt (hfirst entry hentry)
      · rename_i hlt
        split
        · rename_i hsame
          exact List.pairwise_cons.2 ⟨hsame ▸ hfirst, hrest⟩
        · rename_i hne
          refine List.pairwise_cons.2 ⟨fun entry hentry => ?_, ih hrest⟩
          rcases mem_insertEntry hentry with rfl | hentry
          · exact lt_of_ne_of_not_lt hne hlt
          · exact hfirst entry hentry

/-- An entry with a new key is put in beside all the others. -/
theorem insertEntry_perm (hnew : key ∉ entries.map Prod.fst) :
    (insertEntry key value entries).Perm ((key, value) :: entries) := by
  induction entries with
  | nil => exact .refl _
  | cons first rest ih =>
      rw [List.map_cons, List.mem_cons, not_or] at hnew
      rw [insertEntry, if_neg hnew.1]
      split
      · exact .refl _
      · exact ((ih hnew.2).cons first).trans (.swap _ _ _)

/-- The steps of sorting keep keys ascending. -/
theorem Ascending.foldl_insertEntry (h : Ascending others) :
    Ascending
      (entries.foldl (fun sorted (key, value) => Tree.insertEntry key value sorted) others) := by
  induction entries generalizing others with
  | nil => exact h
  | cons first rest ih => exact ih (h.insertEntry first.1 first.2)

/-- The steps of sorting give only entries that were there. -/
theorem mem_foldl_insertEntry {entry : String × β}
    (h : entry ∈ entries.foldl (fun sorted (key, value) => insertEntry key value sorted) others) :
    entry ∈ others ∨ entry ∈ entries := by
  induction entries generalizing others with
  | nil => exact .inl h
  | cons first rest ih =>
      rcases ih h with hinserted | hrest
      · rcases mem_insertEntry hinserted with rfl | hother
        · exact .inr List.mem_cons_self
        · exact .inl hother
      · exact .inr (List.mem_cons_of_mem _ hrest)

/-- The steps of sorting lose no entry, as long as no two entries share a key. -/
theorem foldl_insertEntry_perm (hnodup : ((others ++ entries).map Prod.fst).Nodup) :
    (entries.foldl (fun sorted (key, value) => insertEntry key value sorted) others).Perm
      (others ++ entries) := by
  induction entries generalizing others with
  | nil => rw [List.append_nil]; exact .refl _
  | cons first rest ih =>
      have hmiddle : (others ++ first :: rest).Perm ((first :: others) ++ rest) := List.perm_middle
      have hcons := (hmiddle.map Prod.fst).nodup_iff.1 hnodup
      have hnew : first.1 ∉ others.map Prod.fst := by
        intro hmem
        rw [List.cons_append, List.map_cons, List.nodup_cons, List.map_append] at hcons
        exact hcons.1 (List.mem_append_left _ hmem)
      have hinsert : (insertEntry first.1 first.2 others ++ rest).Perm
          ((first.1, first.2) :: others ++ rest) := (insertEntry_perm hnew).append_right rest
      exact (ih ((hinsert.map Prod.fst).nodup_iff.2 hcons)).trans (hinsert.trans hmiddle.symm)

/-- Sorted entries have ascending keys. -/
theorem sortEntries_ascending (entries : List (String × β)) : Ascending (sortEntries entries) :=
  Ascending.foldl_insertEntry List.Pairwise.nil

/-- Where no two entries share a key, sorting leaves all of them. -/
theorem sortEntries_perm (hnodup : (entries.map Prod.fst).Nodup) :
    (sortEntries entries).Perm entries := by
  have hnodup' : (([] ++ entries : List (String × β)).map Prod.fst).Nodup := hnodup
  exact foldl_insertEntry_perm hnodup'

/-- Sorting gives only entries that were there, also where some share a key. -/
theorem mem_of_mem_sortEntries {entry : String × β} (h : entry ∈ sortEntries entries) :
    entry ∈ entries := by
  exact (mem_foldl_insertEntry h).resolve_left List.not_mem_nil

/-- Where no two entries share a key, sorting does not depend on their order. -/
theorem sortEntries_eq_of_perm (hnodup : (entries.map Prod.fst).Nodup)
    (hperm : entries.Perm others) : sortEntries entries = sortEntries others := by
  have hnodup' := (hperm.map Prod.fst).nodup_iff.1 hnodup
  have hsorted : (sortEntries entries).Perm (sortEntries others) :=
    (sortEntries_perm hnodup).trans (hperm.trans (sortEntries_perm hnodup').symm)
  refine hsorted.eq_of_pairwise (fun first second _ _ hlt hgt => ?_) (sortEntries_ascending entries)
    (sortEntries_ascending others)
  exact absurd hgt (String.lt_asymm hlt)

end WattPlan.Tree
