import WattPlan.Numeral.Binary64
import WattPlan.Proofs.Traversals
import WattPlan.Proofs.WorkflowFile.Trees
import WattPlan.Scalar.Binary64

/-!
# The records of a workflow file

A tree that is read as a workflow file consists of three kinds of records, one inside the other.
`RecordKind` says which keys a record may have and which it needs, and `Record` where records stand
in a tree. In a tree that is accepted every record has the keys of its kind
(`RecordKind.fits_of_record`), and there is no other mapping in it (`RecordKind.record_of_within`).
`format_exact` puts this together with the way back: a file that is written is read as it was.
-/

namespace WattPlan

namespace Tree

variable {α β : Type}

/-- Is a tree neither a sequence nor a mapping? -/
def isScalar : Tree α → Bool
  | sequence _ => false
  | mapping _ => false
  | _ => true

/-- The keys of a mapping. -/
def keys : Tree α → List String
  | mapping entries => entries.map Prod.fst
  | _ => []

/-- The trees inside a tree, at any level. -/
inductive Within (root : Tree α) : Tree α → Prop where
  | root : Within root root
  | item (items : List (Tree α)) (item : Tree α) :
      Within root (.sequence items) → item ∈ items → Within root item
  | field (entries : List (String × Tree α)) (key : String) (value : Tree α) :
      Within root (.mapping entries) → (key, value) ∈ entries → Within root value

variable {tree value : Tree α} {entries : List (String × Tree α)} {key : String} {b : β}

section Shapes

variable [Numeral α]

/-- Only scalars are read as texts. -/
theorem isScalar_of_text? {content : String} (h : tree.text? = some content) :
    tree.isScalar = true := by
  cases tree <;> first | rfl | cases h

/-- Only scalars are read as quantities. -/
theorem isScalar_of_quantity? {x : α} (h : tree.quantity? = some x) : tree.isScalar = true := by
  cases tree <;> first | rfl | cases h

omit [Numeral α] in
/-- Only scalars are read as natural numbers. -/
theorem isScalar_of_natural? {bound n : Nat} (h : tree.natural? bound = some n) :
    tree.isScalar = true := by
  cases tree <;> first | rfl | cases h

omit [Numeral α] in
/-- What is read as a list is a scalar, which stands for the empty list, or a sequence each of
whose items is read. -/
theorem listOf?_eq_some {read : Tree α → Option β} {bs : List β}
    (h : listOf? read tree = some bs) :
    tree.isScalar = true ∨
      ∃ items, tree = .sequence items ∧ ∀ item ∈ items, (read item).isSome := by
  obtain ⟨items, hitems, hall⟩ := Option.bind_eq_some_iff.1 h
  cases tree with
  | sequence others =>
      cases hitems
      refine .inr ⟨items, rfl, fun item hitem => ?_⟩
      obtain ⟨b, -, hb⟩ := forall₂_exists_right (mapM_eq_some_iff.1 hall) hitem
      rw [hb]
      rfl
  | mapping entries => cases hitems
  | plain | tagged | text | whole | quantity => exact .inl rfl

end Shapes

section Entries

/-- A record has keys that are allowed, each of them once. -/
theorem record?_eq_some {allowed : List String} (h : tree.record? allowed = some entries) :
    tree.entries? = some entries ∧ (∀ key ∈ entries.map Prod.fst, key ∈ allowed) ∧
      (entries.map Prod.fst).Nodup := by
  obtain ⟨others, hothers, hkeys⟩ := Option.bind_eq_some_iff.1 h
  dsimp only at hkeys
  split at hkeys
  · rename_i hfits
    cases hkeys
    exact ⟨hothers, fun key hkey => List.contains_iff_mem.1 (List.all_eq_true.1 hfits.1 key hkey),
      hfits.2⟩
  · cases hkeys

/-- Where keys are there once, a value is found under its key. -/
theorem lookup_of_mem (hnodup : (entries.map Prod.fst).Nodup) (hmem : (key, value) ∈ entries) :
    entries.lookup key = some value := by
  induction entries with
  | nil => cases hmem
  | cons entry rest ih =>
      rw [List.map_cons, List.nodup_cons] at hnodup
      rcases List.mem_cons.1 hmem with rfl | hmem
      · exact List.lookup_cons_self
      · have hne : key ≠ entry.1 := fun h =>
          hnodup.1 (h ▸ List.mem_map_of_mem hmem)
        rw [List.lookup_cons, beq_eq_false_iff_ne.2 hne]
        exact ih hnodup.2 hmem

/-- A field that is needed is there. -/
theorem mem_keys_of_required {read : Tree α → Option β} (h : required key read entries = some b) :
    key ∈ entries.map Prod.fst := by
  obtain ⟨value, hlookup, -⟩ := Option.bind_eq_some_iff.1 h
  obtain ⟨before, after, rfl, -⟩ := List.lookup_eq_some_iff.1 hlookup
  simp

variable {read : Tree α → Option β}

theorem read_of_required (hnodup : (entries.map Prod.fst).Nodup)
    (h : required key read entries = some b) (hmem : (key, value) ∈ entries) :
    read value = some b := by
  rwa [required, lookup_of_mem hnodup hmem] at h

theorem read_of_withDefault {standard : β} (hnodup : (entries.map Prod.fst).Nodup)
    (h : withDefault key standard read entries = some b) (hmem : (key, value) ∈ entries) :
    read value = some b := by
  rwa [withDefault, lookup_of_mem hnodup hmem] at h

/-- Under the key of an optional field stands a scalar, if only scalars are read there. -/
theorem isScalar_of_optional {b? : Option β} (hnodup : (entries.map Prod.fst).Nodup)
    (h : optional key read entries = some b?) (hmem : (key, value) ∈ entries)
    (hread : ∀ b, read value = some b → value.isScalar = true) : value.isScalar = true := by
  rw [optional, lookup_of_mem hnodup hmem] at h
  obtain ⟨null, hnull, hrest⟩ := Option.bind_eq_some_iff.1 h
  cases null with
  | false =>
      obtain ⟨b, hb, -⟩ := Option.map_eq_some_iff.1 hrest
      exact hread b hb
  | true => cases value <;> first | rfl | cases hnull

/-- A tree with entries is a mapping. -/
theorem eq_mapping_of_entries? (h : tree.entries? = some entries) (hne : entries ≠ []) :
    tree = .mapping entries := by
  unfold entries? at h
  split at h
  · cases h
    rfl
  · split at h
    · cases h
      exact absurd rfl hne
    · cases h

end Entries

end Tree

open WattPlan.Tree

/-- The kinds of records in a workflow file. -/
inductive RecordKind where
  | file
  | job
  | artifact
deriving DecidableEq

namespace RecordKind

variable {α : Type}

/-- The keys that a record may have. -/
def allowed : RecordKind → List String
  | file => ["name", "id", "submitted_at", "reliability_goal", "jobs"]
  | job => ["name", "length", "parents", "inputs", "outputs"]
  | artifact => ["name", "size", "location"]

/-- The keys that a record needs. -/
def required : RecordKind → List String
  | file => ["name", "jobs"]
  | job => ["name", "length"]
  | artifact => ["name", "size"]

/-- The kind of the records that are listed under a key. -/
def member? : RecordKind → String → Option RecordKind
  | file, "jobs" => some job
  | job, "inputs" | job, "outputs" => some artifact
  | _, _ => none

/-- The trees that are written for the records of a kind. -/
inductive Writes : RecordKind → Tree α → Prop where
  | file (file : WorkflowFile α) : Writes .file file.toTree
  | job (entry : JobEntry α) : Writes .job (WorkflowFile.jobTree entry)
  | artifact (entry : ArtifactEntry α) : Writes .artifact (WorkflowFile.artifactTree entry)

/-- The keys that a record needs are those that no record is written without, except for the time of
submission. -/
theorem mem_required_iff [Scalar α] {kind : RecordKind} {key : String} :
    key ∈ kind.required ↔ key ∈ kind.allowed ∧ key ≠ "submitted_at" ∧
      ∀ tree : Tree α, kind.Writes tree → key ∈ tree.keys := by
  constructor
  · intro hkey
    have hplain : key ∈ kind.allowed ∧ key ≠ "submitted_at" := by
      cases kind <;> simp only [required, List.mem_cons, List.not_mem_nil, or_false] at hkey <;>
        rcases hkey with rfl | rfl <;> decide
    refine ⟨hplain.1, hplain.2, fun tree htree => ?_⟩
    cases htree <;> simp only [required, List.mem_cons, List.not_mem_nil, or_false] at hkey <;>
      rcases hkey with rfl | rfl <;>
        simp [WorkflowFile.toTree, WorkflowFile.jobTree, WorkflowFile.artifactTree, Tree.keys]
  · rintro ⟨-, hsubmitted, hwritten⟩
    -- A record without anything that may be left out has no other keys.
    cases kind with
    | file =>
        have hkey := hwritten _ (.file ⟨"", none, 0, none, []⟩)
        simp only [WorkflowFile.toTree, WorkflowFile.optionalField, Tree.keys] at hkey
        simpa [hsubmitted, required] using hkey
    | job => exact hwritten _ (.job ⟨"", 0, [], [], []⟩)
    | artifact => exact hwritten _ (.artifact ⟨"", 0, none⟩)

/-- The keys of entries are those of a record of a kind. -/
structure Fits (kind : RecordKind) (entries : List (String × Tree α)) : Prop where
  allowed : ∀ key ∈ entries.map Prod.fst, key ∈ kind.allowed
  required : ∀ key ∈ kind.required, key ∈ entries.map Prod.fst

variable [Scalar α] [Numeral α]

/-- Is a tree read as a record of a kind? -/
def reads : RecordKind → Tree α → Bool
  | file, tree => (WorkflowFile.ofTree? tree).isSome
  | job, tree => (WorkflowFile.jobOfTree? tree).isSome
  | artifact, tree => (WorkflowFile.artifactOfTree? tree).isSome

/-- A value fits under a key of a record: a scalar, or a list of what the key lists. -/
def Holds (kind : RecordKind) (key : String) (value : Tree α) : Prop :=
  value.isScalar = true ∨ ∃ items, value = .sequence items ∧ ∀ item ∈ items,
    match kind.member? key with
    | some member => member.reads item = true
    | none => item.isScalar = true

variable {kind : RecordKind} {tree value : Tree α} {entries : List (String × Tree α)}
  {key : String}

/-- A list of records is a scalar or a sequence of them. -/
theorem holds_of_listOf? {β : Type} {read : Tree α → Option β} {bs : List β}
    (h : listOf? read value = some bs)
    (hread : ∀ item, (read item).isSome → match kind.member? key with
      | some member => member.reads item = true
      | none => item.isScalar = true) : kind.Holds key value := by
  rcases listOf?_eq_some h with hscalar | ⟨items, rfl, hitems⟩
  · exact .inl hscalar
  · exact .inr ⟨items, rfl, fun item hitem => hread item (hitems item hitem)⟩

/-- The entries of an artifact. -/
theorem artifact_reads (h : artifact.reads tree = true) : ∃ entries,
    tree.entries? = some entries ∧ artifact.Fits entries ∧
      ∀ key value, (key, value) ∈ entries → artifact.Holds key value := by
  obtain ⟨entry, hentry⟩ := Option.isSome_iff_exists.1 h
  obtain ⟨entries, hrecord, hfields⟩ := Option.bind_eq_some_iff.1 hentry
  obtain ⟨hentries, hallowed, hnodup⟩ := record?_eq_some hrecord
  obtain ⟨name, hname, hfields⟩ := Option.bind_eq_some_iff.1 hfields
  obtain ⟨size, hsize, hfields⟩ := Option.bind_eq_some_iff.1 hfields
  obtain ⟨location, hlocation, -⟩ := Option.bind_eq_some_iff.1 hfields
  refine ⟨entries, hentries, ⟨hallowed, ?_⟩, fun key value hmem => .inl ?_⟩
  · exact List.forall_mem_cons.2
      ⟨mem_keys_of_required hname, List.forall_mem_singleton.2 (mem_keys_of_required hsize)⟩
  · have hkey := hallowed key (List.mem_map_of_mem hmem)
    simp only [List.mem_cons, List.not_mem_nil, or_false] at hkey
    rcases hkey with rfl | rfl | rfl
    · exact isScalar_of_text? (read_of_required hnodup hname hmem)
    · exact isScalar_of_quantity? (read_of_required hnodup hsize hmem)
    · exact isScalar_of_optional hnodup hlocation hmem fun _ => isScalar_of_text?

/-- The entries of a job. -/
theorem job_reads (h : job.reads tree = true) : ∃ entries,
    tree.entries? = some entries ∧ job.Fits entries ∧
      ∀ key value, (key, value) ∈ entries → job.Holds key value := by
  obtain ⟨entry, hentry⟩ := Option.isSome_iff_exists.1 h
  obtain ⟨entries, hrecord, hfields⟩ := Option.bind_eq_some_iff.1 hentry
  obtain ⟨hentries, hallowed, hnodup⟩ := record?_eq_some hrecord
  obtain ⟨name, hname, hfields⟩ := Option.bind_eq_some_iff.1 hfields
  obtain ⟨length, hlength, hfields⟩ := Option.bind_eq_some_iff.1 hfields
  obtain ⟨parents, hparents, hfields⟩ := Option.bind_eq_some_iff.1 hfields
  obtain ⟨inputs, hinputs, hfields⟩ := Option.bind_eq_some_iff.1 hfields
  obtain ⟨outputs, houtputs, -⟩ := Option.bind_eq_some_iff.1 hfields
  refine ⟨entries, hentries, ⟨hallowed, ?_⟩, fun key value hmem => ?_⟩
  · exact List.forall_mem_cons.2
      ⟨mem_keys_of_required hname, List.forall_mem_singleton.2 (mem_keys_of_required hlength)⟩
  · have hkey := hallowed key (List.mem_map_of_mem hmem)
    simp only [List.mem_cons, List.not_mem_nil, or_false] at hkey
    rcases hkey with rfl | rfl | rfl | rfl | rfl
    · exact .inl (isScalar_of_text? (read_of_required hnodup hname hmem))
    · exact .inl (isScalar_of_quantity? (read_of_required hnodup hlength hmem))
    · refine holds_of_listOf? (read_of_withDefault hnodup hparents hmem) fun item hitem => ?_
      obtain ⟨content, hcontent⟩ := Option.isSome_iff_exists.1 hitem
      exact isScalar_of_text? hcontent
    · exact holds_of_listOf? (read_of_withDefault hnodup hinputs hmem) fun _ => id
    · exact holds_of_listOf? (read_of_withDefault hnodup houtputs hmem) fun _ => id

/-- The entries of a workflow file. -/
theorem file_reads (h : file.reads tree = true) : ∃ entries,
    tree.entries? = some entries ∧ file.Fits entries ∧
      ∀ key value, (key, value) ∈ entries → file.Holds key value := by
  obtain ⟨entry, hentry⟩ := Option.isSome_iff_exists.1 h
  obtain ⟨entries, hrecord, hfields⟩ := Option.bind_eq_some_iff.1 hentry
  obtain ⟨hentries, hallowed, hnodup⟩ := record?_eq_some hrecord
  obtain ⟨name, hname, hfields⟩ := Option.bind_eq_some_iff.1 hfields
  obtain ⟨number, hnumber, hfields⟩ := Option.bind_eq_some_iff.1 hfields
  obtain ⟨submittedAt, hsubmitted, hfields⟩ := Option.bind_eq_some_iff.1 hfields
  obtain ⟨goal, hgoal, hfields⟩ := Option.bind_eq_some_iff.1 hfields
  obtain ⟨jobs, hjobs, -⟩ := Option.bind_eq_some_iff.1 hfields
  refine ⟨entries, hentries, ⟨hallowed, ?_⟩, fun key value hmem => ?_⟩
  · exact List.forall_mem_cons.2
      ⟨mem_keys_of_required hname, List.forall_mem_singleton.2 (mem_keys_of_required hjobs)⟩
  · have hkey := hallowed key (List.mem_map_of_mem hmem)
    simp only [List.mem_cons, List.not_mem_nil, or_false] at hkey
    rcases hkey with rfl | rfl | rfl | rfl | rfl
    · exact .inl (isScalar_of_text? (read_of_required hnodup hname hmem))
    · exact .inl (isScalar_of_optional hnodup hnumber hmem fun _ => isScalar_of_natural?)
    · exact .inl (isScalar_of_quantity? (read_of_withDefault hnodup hsubmitted hmem))
    · exact .inl (isScalar_of_optional hnodup hgoal hmem fun _ => isScalar_of_quantity?)
    · exact holds_of_listOf? (read_of_required hnodup hjobs hmem) fun _ => id

/-- A tree that is read as a record is a mapping with the keys of its kind, and under each key
stands what fits there. -/
theorem exists_of_reads (h : kind.reads tree = true) : ∃ entries, tree = .mapping entries ∧
    kind.Fits entries ∧ ∀ key value, (key, value) ∈ entries → kind.Holds key value := by
  obtain ⟨entries, hentries, hfits, hholds⟩ : ∃ entries, tree.entries? = some entries ∧
      kind.Fits entries ∧ ∀ key value, (key, value) ∈ entries → kind.Holds key value := by
    cases kind with
    | file => exact file_reads h
    | job => exact job_reads h
    | artifact => exact artifact_reads h
  have hne : entries ≠ [] := by
    rintro rfl
    have hname := hfits.required "name" (by cases kind <;> decide)
    cases hname
  exact ⟨entries, eq_mapping_of_entries? hentries hne, hfits, hholds⟩

end RecordKind

section Places

variable {α : Type}

/-- The records in a tree, by the places where they stand. -/
inductive Record (root : Tree α) : RecordKind → Tree α → Prop where
  | file : Record root .file root
  | member (kind member : RecordKind) (entries : List (String × Tree α)) (key : String)
      (items : List (Tree α)) (item : Tree α) :
      Record root kind (.mapping entries) → kind.member? key = some member →
      (key, .sequence items) ∈ entries → item ∈ items → Record root member item

variable [Scalar α] [Numeral α] {root tree : Tree α} {kind : RecordKind}
  {entries : List (String × Tree α)}

namespace RecordKind

/-- In a tree that is accepted every record is read. -/
theorem reads_of_record (hroot : file.reads root = true) (h : Record root kind tree) :
    kind.reads tree = true := by
  induction h with
  | file => exact hroot
  | member kind member entries key items item _ hkey hmem hitem ih =>
      obtain ⟨others, hothers, -, hholds⟩ := exists_of_reads ih
      cases hothers
      rcases hholds key _ hmem with hscalar | ⟨members, hmembers, hall⟩
      · cases hscalar
      · cases hmembers
        have hread := hall item hitem
        rwa [hkey] at hread

/-- In a tree that is accepted a record has the keys of its kind. -/
theorem fits_of_record (hroot : file.reads root = true)
    (h : Record root kind (.mapping entries)) : kind.Fits entries := by
  obtain ⟨others, hothers, hfits, -⟩ := exists_of_reads (reads_of_record hroot h)
  cases hothers
  exact hfits

/-- A tree inside one that is accepted is a scalar, a record, or a list of scalars and records. -/
theorem cases_of_within (hroot : file.reads root = true) (h : root.Within tree) :
    tree.isScalar = true ∨ (∃ kind, Record root kind tree) ∨ ∃ items, tree = .sequence items ∧
      ∀ item ∈ items, item.isScalar = true ∨ ∃ kind, Record root kind item := by
  induction h with
  | root => exact .inr (.inl ⟨.file, .file⟩)
  | item items item _ hitem ih =>
      rcases ih with hscalar | ⟨kind, hrecord⟩ | ⟨others, hothers, hall⟩
      · cases hscalar
      · obtain ⟨entries, hmapping, -⟩ := exists_of_reads (reads_of_record hroot hrecord)
        cases hmapping
      · cases hothers
        exact (hall item hitem).imp_right .inl
  | field entries key value _ hmem ih =>
      rcases ih with hscalar | ⟨kind, hrecord⟩ | ⟨others, hothers, -⟩
      · cases hscalar
      · obtain ⟨others, hothers, -, hholds⟩ := exists_of_reads (reads_of_record hroot hrecord)
        cases hothers
        rcases hholds key value hmem with hscalar | ⟨items, rfl, hall⟩
        · exact .inl hscalar
        · refine .inr (.inr ⟨items, rfl, fun item hitem => ?_⟩)
          have hread := hall item hitem
          split at hread
          · rename_i member hmember
            exact .inr ⟨member, .member _ _ _ _ _ _ hrecord hmember hmem hitem⟩
          · exact .inl hread
      · cases hothers

/-- In a tree that is accepted every mapping, at any level, is a record. -/
theorem record_of_within (hroot : file.reads root = true) (h : root.Within (.mapping entries)) :
    ∃ kind, Record root kind (.mapping entries) := by
  rcases cases_of_within hroot h with hscalar | hrecord | ⟨items, hitems, -⟩
  · cases hscalar
  · exact hrecord
  · cases hitems

end RecordKind

end Places

/-!
### The way back

A written tree answers as itself, so it is read as what was written.
-/

namespace Tree

variable {α : Type} [Numeral α] [DecidableEq α] {items : List (Tree α)}
  {entries : List (String × Tree α)}

/-- Items that each stand for themselves stand for themselves together. -/
theorem itemsReadAs_self (h : ∀ item ∈ items, item.readsAs item = true) :
    itemsReadAs items items = true := by
  induction items with
  | nil => rfl
  | cons item items ih =>
      rw [List.forall_mem_cons] at h
      rw [itemsReadAs, h.1, ih h.2]
      rfl

/-- Entries whose values each stand for themselves stand for themselves together. -/
theorem entriesReadAs_self (h : ∀ entry ∈ entries, entry.2.readsAs entry.2 = true) :
    entriesReadAs entries entries = true := by
  induction entries with
  | nil => rfl
  | cons entry entries ih =>
      rw [List.forall_mem_cons] at h
      rw [entriesReadAs, h.1, ih h.2]
      simp

theorem text_readsAs_self (content : String) :
    (text content : Tree α).readsAs (.text content) = true := by
  simp [readsAs, text?, isNull?]

theorem whole_readsAs_self (n : Nat) : (whole n : Tree α).readsAs (.whole n) = true := by
  simp [readsAs, natural?, isNull?]

theorem quantity_readsAs_self (x : α) : (quantity x).readsAs (.quantity x) = true := by
  simp [readsAs, quantity?, isNull?]

end Tree

namespace WorkflowFile

variable {α : Type} [Numeral α] [DecidableEq α]

/-- An optional field stands for itself if its value does. -/
theorem optionalField_readsAs_self {β : Type} {write : β → Tree α}
    (h : ∀ value, (write value).readsAs (write value) = true) (key : String) (value? : Option β) :
    ∀ entry ∈ optionalField key write value?, entry.2.readsAs entry.2 = true := by
  cases value? with
  | none => simp [optionalField]
  | some value => simpa [optionalField] using h value

/-- A list field stands for itself if its members do. -/
theorem listField_readsAs_self {β : Type} {write : β → Tree α}
    (h : ∀ value, (write value).readsAs (write value) = true) (key : String) (values : List β) :
    ∀ entry ∈ listField key write values, entry.2.readsAs entry.2 = true := by
  unfold listField
  split
  · simp
  · rw [List.forall_mem_singleton]
    refine itemsReadAs_self fun item hitem => ?_
    obtain ⟨value, -, rfl⟩ := List.mem_map.1 hitem
    exact h value

/-- The tree of an artifact stands for itself. -/
theorem artifactTree_readsAs_self (entry : ArtifactEntry α) :
    (artifactTree entry).readsAs (artifactTree entry) = true := by
  refine entriesReadAs_self (List.forall_mem_append.2 ⟨?_, ?_⟩)
  · exact List.forall_mem_cons.2 ⟨text_readsAs_self _,
      List.forall_mem_singleton.2 (quantity_readsAs_self _)⟩
  · exact optionalField_readsAs_self text_readsAs_self _ _

/-- The tree of a job stands for itself. -/
theorem jobTree_readsAs_self (entry : JobEntry α) :
    (jobTree entry).readsAs (jobTree entry) = true := by
  refine entriesReadAs_self (List.forall_mem_append.2 ⟨List.forall_mem_append.2
    ⟨List.forall_mem_append.2 ⟨?_, ?_⟩, ?_⟩, ?_⟩)
  · exact List.forall_mem_cons.2 ⟨text_readsAs_self _,
      List.forall_mem_singleton.2 (quantity_readsAs_self _)⟩
  · exact listField_readsAs_self text_readsAs_self _ _
  · exact listField_readsAs_self artifactTree_readsAs_self _ _
  · exact listField_readsAs_self artifactTree_readsAs_self _ _

/-- The tree of a workflow file stands for itself. -/
theorem toTree_readsAs_self (file : WorkflowFile α) : file.toTree.readsAs file.toTree = true := by
  refine entriesReadAs_self (List.forall_mem_append.2 ⟨List.forall_mem_append.2
    ⟨List.forall_mem_append.2 ⟨List.forall_mem_append.2 ⟨?_, ?_⟩, ?_⟩, ?_⟩, ?_⟩)
  · exact List.forall_mem_singleton.2 (text_readsAs_self _)
  · exact optionalField_readsAs_self whole_readsAs_self _ _
  · exact List.forall_mem_singleton.2 (quantity_readsAs_self _)
  · exact optionalField_readsAs_self quantity_readsAs_self _ _
  · refine List.forall_mem_singleton.2 (itemsReadAs_self fun item hitem => ?_)
    obtain ⟨job, -, rfl⟩ := List.mem_map.1 hitem
    exact jobTree_readsAs_self job

variable [Scalar α]

/-- A tree is refused as a workflow file, and so is every text that it is the tree of. -/
def Refuses (root : Tree α) : Prop :=
  ofTree? root = none ∧
    ∀ text, Yaml.parse? text = some root →
      (ofText text : Except (LoadFault α) _) = .error (.unreadable .workflow)

omit [DecidableEq α] in
/-- What is not read from a tree is refused. -/
theorem refuses_of_not_reads {root : Tree α} (h : RecordKind.file.reads root ≠ true) :
    Refuses root := by
  have hnone : ofTree? root = none := by simpa [RecordKind.reads] using h
  refine ⟨hnone, fun text htext => ?_⟩
  rw [ofText, htext, Option.bind_some, hnone]

/-- A file with a number of 64 bits or none is read back as it was: from its tree, and from its text
if the document keeps the tree. A tree is refused if a mapping in it, at any level, has a key that
no record has, or if a record in it has a key that is not one of its kind or lacks one that no
record of its kind is written without, except for the time of submission. -/
theorem format_exact :
    (∀ file : WorkflowFile α, (∀ id ∈ file.id, id ≤ largestId) →
      ofTree? file.toTree = some file ∧
      (Yaml.Keeps file.toTree → ofText file.text = .ok file)) ∧
    ∀ root : Tree α,
      (∀ entries, root.Within (.mapping entries) → ∀ key ∈ entries.map Prod.fst,
        (∀ kind : RecordKind, key ∉ kind.allowed) → Refuses root) ∧
      ∀ kind entries, Record root kind (.mapping entries) →
        (∀ key ∈ entries.map Prod.fst, key ∉ kind.allowed → Refuses root) ∧
        ∀ key ∈ kind.allowed, key ≠ "submitted_at" →
          (∀ tree : Tree α, kind.Writes tree → key ∈ tree.keys) →
          key ∉ entries.map Prod.fst → Refuses root := by
  refine ⟨fun file hid => ⟨ofTree?_of_readsAs hid file.toTree_readsAs_self, ofText_text hid⟩,
    fun root => ⟨?_, fun kind entries hrecord => ⟨?_, ?_⟩⟩⟩
  · intro entries hwithin key hkey hforeign
    refine refuses_of_not_reads fun hroot => ?_
    obtain ⟨kind, hrecord⟩ := RecordKind.record_of_within hroot hwithin
    exact hforeign kind ((RecordKind.fits_of_record hroot hrecord).allowed key hkey)
  · intro key hkey hforeign
    refine refuses_of_not_reads fun hroot => ?_
    exact hforeign ((RecordKind.fits_of_record hroot hrecord).allowed key hkey)
  · intro key hallowed hsubmitted hwritten hlacks
    refine refuses_of_not_reads fun hroot => ?_
    exact hlacks ((RecordKind.fits_of_record hroot hrecord).required key
      (RecordKind.mem_required_iff.2 ⟨hallowed, hsubmitted, hwritten⟩))

end WorkflowFile

/-!
## A pipeline

A file of two jobs that leaves some of the optional keys out, and two texts whose only job has a key
too many and one too few.
-/

namespace Pipeline

def file : WorkflowFile Float where
  name := "pipeline"
  id := none
  submittedAt := 30
  reliabilityGoal := some 0.5
  jobs :=
    [⟨"fetch", 1000000, [], [⟨"raw", 500000, some "w2"⟩], [⟨"clean", 200000, none⟩]⟩,
      ⟨"train", 4000000, ["fetch"], [⟨"clean", 200000, none⟩], []⟩]

def misspelled : String :=
  "name: loop\njobs:\n  - { name: a, length: 1.0, parent: b }\n"

def incomplete : String :=
  "name: loop\njobs:\n  - { name: a, parents: [b] }\n"

/-- The keys of the only job of a tree of two fields. -/
def jobKeys? : Tree Float → Option (List String)
  | .mapping [_, ("jobs", .sequence [.mapping entries])] => some (entries.map Prod.fst)
  | _ => none

/-- The only job is a record inside the tree. -/
theorem exists_of_jobKeys? {root : Tree Float} {keys : List String}
    (h : jobKeys? root = some keys) : ∃ entries, entries.map Prod.fst = keys ∧
      root.Within (.mapping entries) ∧ Record root .job (.mapping entries) := by
  unfold jobKeys? at h
  split at h
  · rename_i first entries
    have hfield : ("jobs", .sequence [.mapping entries]) ∈
        [first, ("jobs", .sequence [.mapping entries])] :=
      List.mem_cons_of_mem _ List.mem_cons_self
    exact ⟨entries, Option.some.inj h,
      .item _ _ (.field _ _ _ .root hfield) List.mem_cons_self,
      .member .file .job _ "jobs" _ _ .file rfl hfield List.mem_cons_self⟩
  · cases h

/-- The file is read back from its text, and both texts are refused. -/
theorem file_reads_back : (∀ id ∈ file.id, id ≤ WorkflowFile.largestId) ∧
    Yaml.Keeps file.toTree ∧ WorkflowFile.ofTree? file.toTree = some file ∧
    WorkflowFile.ofText file.text = .ok file ∧
    (Yaml.parse? misspelled).bind jobKeys? = some ["name", "length", "parent"] ∧
    (WorkflowFile.ofText misspelled : Except (LoadFault Float) _) =
      .error (.unreadable .workflow) ∧
    (Yaml.parse? incomplete).bind jobKeys? = some ["name", "parents"] ∧
    (WorkflowFile.ofText incomplete : Except (LoadFault Float) _) =
      .error (.unreadable .workflow) := by
  have hid : ∀ id ∈ file.id, id ≤ WorkflowFile.largestId := by simp [file]
  have hkeeps : Yaml.Keeps file.toTree := by
    unfold Yaml.Keeps
    decide +kernel
  have hmisspelled : (Yaml.parse? misspelled).bind jobKeys? =
      some ["name", "length", "parent"] := by
    decide +kernel
  have hincomplete : (Yaml.parse? incomplete).bind jobKeys? = some ["name", "parents"] := by
    decide +kernel
  obtain ⟨hback, hrefuses⟩ := WorkflowFile.format_exact (α := Float)
  obtain ⟨htree, htext⟩ := hback file hid
  refine ⟨hid, hkeeps, htree, htext hkeeps, hmisspelled, ?_, hincomplete, ?_⟩
  · obtain ⟨root, hparse, hroot⟩ := Option.bind_eq_some_iff.1 hmisspelled
    obtain ⟨entries, hkeys, hwithin, -⟩ := exists_of_jobKeys? hroot
    have hforeign : ∀ kind : RecordKind, "parent" ∉ kind.allowed := by
      intro kind
      cases kind <;> decide
    exact ((hrefuses root).1 entries hwithin "parent" (by simp [hkeys]) hforeign).2 _ hparse
  · obtain ⟨root, hparse, hroot⟩ := Option.bind_eq_some_iff.1 hincomplete
    obtain ⟨entries, hkeys, -, hrecord⟩ := exists_of_jobKeys? hroot
    have hwritten : ∀ tree : Tree Float, RecordKind.job.Writes tree → "length" ∈ tree.keys := by
      rintro tree ⟨entry⟩
      simp [WorkflowFile.jobTree, Tree.keys]
    exact (((hrefuses root).2 .job entries hrecord).2 "length" (by decide) (by decide) hwritten
      (by simp [hkeys])).2 _ hparse

end Pipeline

end WattPlan
