import WattPlan.WorkflowFile.Text

/-!
# What a document keeps

A scalar of a document that is read is no longer a text or a number: it tells only what it stands for
when it is asked. `Tree.readsAs` says that a tree that was read answers as another one was written.
A workflow file whose document keeps its tree so is read back as it was (`ofText_text`).
-/

namespace WattPlan

namespace Tree

variable {α : Type} [Numeral α] [DecidableEq α]

mutual

/-- Does a tree that was read stand for the tree that was written? -/
def readsAs : Tree α → Tree α → Bool
  | .text content, read => read.text? = some content && read.isNull? = some false
  | .whole n, read => read.natural? n = some n && read.isNull? = some false
  | .quantity x, read => read.quantity? = some x && read.isNull? = some false
  | .sequence items, .sequence others => itemsReadAs items others
  | .mapping entries, .mapping others => entriesReadAs entries others
  | _, _ => false

/-- Do items that were read stand for the items that were written, one by one? -/
def itemsReadAs : List (Tree α) → List (Tree α) → Bool
  | [], [] => true
  | item :: items, other :: others => readsAs item other && itemsReadAs items others
  | _, _ => false

/-- Do entries that were read have the keys of the entries that were written, and stand for them? -/
def entriesReadAs : List (String × Tree α) → List (String × Tree α) → Bool
  | [], [] => true
  | (key, value) :: entries, (otherKey, other) :: others =>
      key = otherKey && readsAs value other && entriesReadAs entries others
  | _, _ => false

end

variable {β : Type} {key : String} {value read : Tree α} {items others : List (Tree α)}
  {entries : List (String × Tree α)}

/-- A mapping is read as a mapping. -/
theorem exists_of_mapping_readsAs (h : (mapping entries).readsAs read = true) :
    ∃ others, read = .mapping others ∧ entriesReadAs entries others = true := by
  cases read with
  | mapping others => exact ⟨others, rfl, h⟩
  | plain | tagged | text | whole | quantity | sequence => cases h

/-- A sequence is read as a sequence. -/
theorem exists_of_sequence_readsAs (h : (sequence items).readsAs read = true) :
    ∃ others, read = .sequence others ∧ itemsReadAs items others = true := by
  cases read with
  | sequence others => exact ⟨others, rfl, h⟩
  | plain | tagged | text | whole | quantity | mapping => cases h

/-- A written tree does not stand for nothing when it is read. -/
theorem isNull?_of_readsAs (h : value.readsAs read = true) : read.isNull? = some false := by
  cases value with
  | text content =>
      rw [readsAs, Bool.and_eq_true] at h
      exact of_decide_eq_true h.2
  | whole n =>
      rw [readsAs, Bool.and_eq_true] at h
      exact of_decide_eq_true h.2
  | quantity x =>
      rw [readsAs, Bool.and_eq_true] at h
      exact of_decide_eq_true h.2
  | sequence items =>
      obtain ⟨others, rfl, -⟩ := exists_of_sequence_readsAs h
      rfl
  | mapping entries =>
      obtain ⟨others, rfl, -⟩ := exists_of_mapping_readsAs h
      rfl
  | plain => cases h
  | tagged => cases h

theorem text?_of_readsAs {content : String} (h : (text content).readsAs read = true) :
    read.text? = some content := by
  rw [readsAs, Bool.and_eq_true] at h
  exact of_decide_eq_true h.1

theorem quantity?_of_readsAs {x : α} (h : (quantity x).readsAs read = true) :
    read.quantity? = some x := by
  rw [readsAs, Bool.and_eq_true] at h
  exact of_decide_eq_true h.1

/-- A whole number is read back within any bound that it keeps. -/
theorem natural?_of_readsAs {n bound : Nat} (h : (whole n : Tree α).readsAs read = true)
    (hn : n ≤ bound) : read.natural? bound = some n := by
  rw [readsAs, Bool.and_eq_true] at h
  have hread : read.natural? n = some n := of_decide_eq_true h.1
  -- Apart from the bound, what is read does not depend on it.
  cases read with
  | plain written =>
      rw [natural?] at hread ⊢
      obtain ⟨hword, -⟩ := Option.filter_eq_some_iff.1 hread
      exact Option.filter_eq_some_iff.2 ⟨hword, decide_eq_true hn⟩
  | tagged kind content =>
      rw [natural?] at hread ⊢
      split at hread
      · cases hread
      · rename_i hkind
        obtain ⟨hword, -⟩ := Option.filter_eq_some_iff.1 hread
        rw [if_neg hkind]
        exact Option.filter_eq_some_iff.2 ⟨hword, decide_eq_true hn⟩
  | whole m =>
      rw [natural?] at hread ⊢
      split at hread
      · cases hread
        exact if_pos hn
      · cases hread
  | text | quantity | sequence | mapping => cases hread

/-- Members that are read one by one give the members that were written. -/
theorem mapM_of_readsAs {write : β → Tree α} {reader : Tree α → Option β} {values : List β}
    (hreader : ∀ value read, (write value).readsAs read = true → reader read = some value)
    (h : itemsReadAs (values.map write) others = true) : others.mapM reader = some values := by
  induction values generalizing others with
  | nil =>
      cases others with
      | nil => rfl
      | cons other rest => cases h
  | cons value values ih =>
      cases others with
      | nil => cases h
      | cons other rest =>
          rw [List.map_cons, itemsReadAs, Bool.and_eq_true] at h
          rw [List.mapM_cons, hreader value other h.1, ih h.2]
          rfl

/-- The keys are read as they were written. -/
theorem keys_of_readsAs {read : List (String × Tree α)} (h : entriesReadAs entries read = true) :
    read.map Prod.fst = entries.map Prod.fst := by
  induction entries generalizing read with
  | nil =>
      cases read with
      | nil => rfl
      | cons other rest => cases h
  | cons entry entries ih =>
      cases read with
      | nil => cases h
      | cons other rest =>
          rw [entriesReadAs, Bool.and_eq_true, Bool.and_eq_true] at h
          rw [List.map_cons, List.map_cons, ih h.2, of_decide_eq_true h.1.1]

/-- Under a key stands what was written under it. -/
theorem lookup_of_readsAs {read : List (String × Tree α)} (h : entriesReadAs entries read = true)
    (key : String) : match entries.lookup key with
      | some value => ∃ other, read.lookup key = some other ∧ value.readsAs other = true
      | none => read.lookup key = none := by
  induction entries generalizing read with
  | nil =>
      cases read with
      | nil => rfl
      | cons other rest => cases h
  | cons entry entries ih =>
      cases read with
      | nil => cases h
      | cons other rest =>
          rw [entriesReadAs, Bool.and_eq_true, Bool.and_eq_true] at h
          obtain ⟨⟨hkey, hvalue⟩, hrest⟩ := h
          have hkey : entry.1 = other.1 := of_decide_eq_true hkey
          rw [List.lookup_cons, List.lookup_cons, ← hkey]
          cases key == entry.1 with
          | true => exact ⟨other.2, rfl, hvalue⟩
          | false => exact ih hrest

/-! ### Fields -/

section Fields

variable {written : List (String × Tree α)} (h : entriesReadAs written entries = true)
include h

/-- The record that was written is read. -/
theorem record?_of_readsAs {allowed : List String}
    (hallowed : ∀ key ∈ written.map Prod.fst, key ∈ allowed)
    (hnodup : (written.map Prod.fst).Nodup) :
    (mapping entries).record? allowed = some entries := by
  have hkeys := keys_of_readsAs h
  have hall : (entries.map Prod.fst).all allowed.contains = true := by
    rw [hkeys, List.all_eq_true]
    exact fun key hkey => List.contains_iff_mem.2 (hallowed key hkey)
  show (if (entries.map Prod.fst).all allowed.contains ∧ (entries.map Prod.fst).Nodup then _
    else none) = _
  exact if_pos ⟨hall, hkeys ▸ hnodup⟩

theorem required_of_readsAs {reader : Tree α → Option β} {b : β}
    (hlookup : written.lookup key = some value)
    (hreader : ∀ read, value.readsAs read = true → reader read = some b) :
    required key reader entries = some b := by
  have hread := lookup_of_readsAs h key
  rw [hlookup] at hread
  obtain ⟨other, hother, hvalue⟩ := hread
  rw [required, hother]
  exact hreader other hvalue

theorem withDefault_of_readsAs {reader : Tree α → Option β} {b : β} {standard : β}
    (hlookup : written.lookup key = some value)
    (hreader : ∀ read, value.readsAs read = true → reader read = some b) :
    withDefault key standard reader entries = some b := by
  have hread := lookup_of_readsAs h key
  rw [hlookup] at hread
  obtain ⟨other, hother, hvalue⟩ := hread
  rw [withDefault, hother]
  exact hreader other hvalue

/-- A list that is left out if it is empty is read back. -/
theorem listField_of_readsAs {write : β → Tree α} {reader : Tree α → Option β} {values : List β}
    (hlookup : written.lookup key =
      if values.isEmpty then none else some (.sequence (values.map write)))
    (hreader : ∀ value read, (write value).readsAs read = true → reader read = some value) :
    withDefault key [] (listOf? reader) entries = some values := by
  have hread := lookup_of_readsAs h key
  rw [hlookup] at hread
  split at hread
  · rename_i tree htree
    obtain ⟨other, hother, hvalue⟩ := hread
    split at htree
    · cases htree
    · cases htree
      obtain ⟨others, rfl, hothers⟩ := exists_of_sequence_readsAs hvalue
      rw [withDefault, hother]
      exact mapM_of_readsAs hreader hothers
  · rename_i htree
    split at htree
    · rename_i hempty
      rw [withDefault, hread, List.isEmpty_iff.1 hempty]
    · cases htree

/-- What is left out if it is not there is read back. -/
theorem optional_of_readsAs {write : β → Tree α} {reader : Tree α → Option β} {value? : Option β}
    (hlookup : written.lookup key = value?.map write)
    (hreader : ∀ value ∈ value?, ∀ read, (write value).readsAs read = true →
      reader read = some value) :
    optional key reader entries = some value? := by
  have hread := lookup_of_readsAs h key
  rw [hlookup] at hread
  cases value? with
  | none =>
      rw [optional, show entries.lookup key = none from hread]
  | some b =>
      obtain ⟨other, hother, hvalue⟩ := hread
      rw [optional, hother]
      show ((other.isNull?).bind fun null =>
        if null then some none else (reader other).map some) = _
      rw [isNull?_of_readsAs hvalue, hreader b rfl other hvalue]
      rfl

end Fields

end Tree

variable {α : Type}

namespace WorkflowFile

open WattPlan.Tree

theorem lookup_singleton {β : Type} (key other : String) (b : β) :
    [(key, b)].lookup other = if other = key then some b else none := by
  by_cases hkey : other = key
  · rw [hkey, if_pos rfl, List.lookup_cons_self]
  · rw [if_neg hkey, List.lookup_cons, beq_eq_false_iff_ne.2 hkey]
    rfl

theorem lookup_optionalField {β : Type} (key other : String) (write : β → Tree α)
    (value? : Option β) : (optionalField key write value?).lookup other =
      if other = key then value?.map write else none := by
  cases value? with
  | none => simp [optionalField]
  | some value => exact lookup_singleton key other (write value)

theorem lookup_listField {β : Type} (key other : String) (write : β → Tree α) (values : List β) :
    (listField key write values).lookup other =
      if other = key then if values.isEmpty then none else some (.sequence (values.map write))
      else none := by
  unfold listField
  split
  · simp
  · exact lookup_singleton key other _

variable [Numeral α] [DecidableEq α]

/-- An artifact is read back. -/
theorem artifactOfTree?_of_readsAs {entry : ArtifactEntry α} {read : Tree α}
    (h : (artifactTree entry).readsAs read = true) : artifactOfTree? read = some entry := by
  obtain ⟨others, rfl, hothers⟩ := exists_of_mapping_readsAs h
  have hrecord : (mapping others).record? ["name", "size", "location"] = some others := by
    refine record?_of_readsAs hothers ?_ ?_ <;> cases entry.location <;> simp [optionalField]
  have hname : required "name" text? others = some entry.name :=
    required_of_readsAs hothers rfl fun _ => text?_of_readsAs
  have hsize : required "size" quantity? others = some entry.size :=
    required_of_readsAs hothers rfl fun _ => quantity?_of_readsAs
  have hlocation : optional "location" text? others = some entry.location :=
    optional_of_readsAs hothers (by simp [List.lookup_cons, lookup_optionalField])
      fun _ _ _ => text?_of_readsAs
  simp [artifactOfTree?, hrecord, hname, hsize, hlocation]

/-- A job is read back. -/
theorem jobOfTree?_of_readsAs {entry : JobEntry α} {read : Tree α}
    (h : (jobTree entry).readsAs read = true) : jobOfTree? read = some entry := by
  obtain ⟨others, rfl, hothers⟩ := exists_of_mapping_readsAs h
  have hrecord : (mapping others).record? ["name", "length", "parents", "inputs", "outputs"] =
      some others := by
    refine record?_of_readsAs hothers ?_ ?_ <;> unfold listField <;> split <;> split <;> split <;>
      simp
  have hname : required "name" text? others = some entry.name :=
    required_of_readsAs hothers rfl fun _ => text?_of_readsAs
  have hlength : required "length" quantity? others = some entry.length :=
    required_of_readsAs hothers rfl fun _ => quantity?_of_readsAs
  have hparents : withDefault "parents" [] (listOf? text?) others = some entry.parents :=
    listField_of_readsAs hothers (by simp [List.lookup_cons, List.lookup_append, lookup_listField])
      fun _ _ => text?_of_readsAs
  have hinputs : withDefault "inputs" [] (listOf? artifactOfTree?) others = some entry.inputs :=
    listField_of_readsAs hothers (by simp [List.lookup_cons, List.lookup_append, lookup_listField])
      fun _ _ => artifactOfTree?_of_readsAs
  have houtputs : withDefault "outputs" [] (listOf? artifactOfTree?) others = some entry.outputs :=
    listField_of_readsAs hothers (by simp [List.lookup_cons, List.lookup_append, lookup_listField])
      fun _ _ => artifactOfTree?_of_readsAs
  simp [jobOfTree?, hrecord, hname, hlength, hparents, hinputs, houtputs]

/-- A workflow file with a number of 64 bits or none is read back from any tree that answers as its
own. -/
theorem ofTree?_of_readsAs [Scalar α] {file : WorkflowFile α} {read : Tree α}
    (hid : ∀ id ∈ file.id, id ≤ largestId) (h : file.toTree.readsAs read = true) :
    ofTree? read = some file := by
  obtain ⟨others, rfl, hothers⟩ := exists_of_mapping_readsAs h
  have hrecord : (mapping others).record?
      ["name", "id", "submitted_at", "reliability_goal", "jobs"] = some others := by
    refine record?_of_readsAs hothers ?_ ?_ <;> cases file.id <;> cases file.reliabilityGoal <;>
      simp [optionalField]
  have hname : required "name" text? others = some file.name :=
    required_of_readsAs hothers rfl fun _ => text?_of_readsAs
  have hnumber : optional "id" (natural? largestId) others = some file.id :=
    optional_of_readsAs hothers
      (by simp [List.lookup_cons, List.lookup_append, lookup_optionalField])
      fun id hsome _ hread => natural?_of_readsAs hread (hid id hsome)
  have hsubmitted : withDefault "submitted_at" 0 quantity? others = some file.submittedAt :=
    withDefault_of_readsAs hothers
      (by simp [List.lookup_cons, List.lookup_append, lookup_optionalField])
      fun _ => quantity?_of_readsAs
  have hgoal : optional "reliability_goal" quantity? others = some file.reliabilityGoal :=
    optional_of_readsAs hothers
      (by simp [List.lookup_cons, List.lookup_append, lookup_optionalField])
      fun _ _ _ => quantity?_of_readsAs
  have hjobs : required "jobs" (listOf? jobOfTree?) others = some file.jobs := by
    refine required_of_readsAs hothers
      (by simp [List.lookup_cons, List.lookup_append, lookup_optionalField]; rfl) ?_
    intro read hread
    obtain ⟨items, rfl, hitems⟩ := exists_of_sequence_readsAs hread
    exact mapM_of_readsAs (fun _ _ => jobOfTree?_of_readsAs) hitems
  simp [ofTree?, hrecord, hname, hnumber, hsubmitted, hgoal, hjobs]

end WorkflowFile

variable [Numeral α] [DecidableEq α]

/-- The document of a tree is read as a tree that stands for it. -/
def Yaml.Keeps (tree : Tree α) : Prop :=
  (Yaml.parse? (Yaml.render tree)).any tree.readsAs = true

/-- A workflow file with a number of 64 bits or none is read back from its text, if the document
keeps its tree. -/
theorem WorkflowFile.ofText_text [Scalar α] {file : WorkflowFile α}
    (hid : ∀ id ∈ file.id, id ≤ largestId) (h : Yaml.Keeps file.toTree) :
    ofText file.text = .ok file := by
  obtain ⟨read, hread, hreads⟩ := (Option.any_eq_true _ _).1 h
  rw [ofText, text, hread, Option.bind_some, ofTree?_of_readsAs hid hreads]

end WattPlan
