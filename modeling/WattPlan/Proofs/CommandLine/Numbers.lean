import Mathlib.Data.List.Nodup
import WattPlan.CommandLine.Planning
import WattPlan.Numeral.Binary64
import WattPlan.Proofs.Planner.Calls
import WattPlan.Proofs.PlanningDocument
import WattPlan.Scalar.Binary64

/-!
# Numbers of workflows in a run

A file without a number gets its place in the call as one. `numbers_nodup_iff` says when the numbers
of all files differ: the stated ones do, and none of them is the place of a file without one. Then no
two windows that the run leaves on the nodes belong to the same job (`jobs_unique`). Stated numbers
that differ are not enough by themselves (`Collision.stated_numbers_differ`).
-/

namespace WattPlan

/-- The numbers that some things get: those that they state, and else their places from `first`
on. -/
def numbersFrom (first : Nat) (stated : List (Option Nat)) : List Nat :=
  (stated.zipIdx first).map fun (number, place) => number.getD place

/-- Stated numbers that differ stand at one place each. -/
theorem place_unique {stated : List (Option Nat)} (h : (stated.filterMap id).Nodup)
    {i j number : Nat} (hi : stated[i]? = some (some number))
    (hj : stated[j]? = some (some number)) : i = j := by
  have hpairwise := List.pairwise_filterMap.1 h
  rw [List.pairwise_iff_getElem] at hpairwise
  obtain ⟨hilt, hi⟩ := List.getElem?_eq_some_iff.1 hi
  obtain ⟨hjlt, hj⟩ := List.getElem?_eq_some_iff.1 hj
  rcases Nat.lt_trichotomy i j with hlt | heq | hlt
  · exact absurd rfl (hpairwise i j hilt hjlt hlt number hi number hj)
  · exact heq
  · exact absurd rfl (hpairwise j i hjlt hilt hlt number hj number hi)

/-- Numbers differ just when the stated ones do, and none of them is the place of a thing without
one. -/
theorem numbers_nodup_iff (first : Nat) (stated : List (Option Nat)) :
    (numbersFrom first stated).Nodup ↔ (stated.filterMap id).Nodup ∧
      ∀ place, (none, place) ∈ stated.zipIdx first → some place ∉ stated := by
  have hplaces : (stated.zipIdx first).Nodup := by
    refine List.Nodup.of_map Prod.snd ?_
    rw [List.zipIdx_map_snd]
    exact List.nodup_range' 1
  constructor
  · intro h
    have hinjective := List.inj_on_of_nodup_map h
    constructor
    · -- Of two places with one stated number, the later one would be the earlier one.
      rw [List.Nodup, List.pairwise_filterMap, List.pairwise_iff_getElem]
      rintro i j hi hj hlt number hnumber _ hother rfl
      have hmem : ∀ k (hk : k < stated.length), (stated[k], first + k) ∈ stated.zipIdx first :=
        fun k hk => List.mk_mem_zipIdx_iff_le_and_getElem?_sub.2 ⟨by omega, by simp [hk]⟩
      have hsame := hinjective (hmem i hi) (hmem j hj) (by
        simp only [id] at hnumber hother
        simp [hnumber, hother])
      have hplace := congrArg Prod.snd hsame
      dsimp only at hplace
      omega
    · intro place hplace hstated
      obtain ⟨i, hi⟩ := List.mem_iff_getElem?.1 hstated
      have hmem : (some place, first + i) ∈ stated.zipIdx first :=
        List.mk_mem_zipIdx_iff_le_and_getElem?_sub.2 ⟨by omega, by simpa using hi⟩
      cases congrArg Prod.fst (hinjective hplace hmem rfl)
  · rintro ⟨hnodup, hfree⟩
    refine List.Nodup.map_on ?_ hplaces
    rintro ⟨_ | number, i⟩ hi ⟨_ | other, j⟩ hj heq <;> simp only [Option.getD] at heq
    · rw [heq]
    · subst heq
      obtain ⟨-, hj⟩ := List.mk_mem_zipIdx_iff_le_and_getElem?_sub.1 hj
      exact absurd (List.mem_of_getElem? hj) (hfree i hi)
    · subst heq
      obtain ⟨-, hi⟩ := List.mk_mem_zipIdx_iff_le_and_getElem?_sub.1 hi
      exact absurd (List.mem_of_getElem? hi) (hfree number hj)
    · subst heq
      obtain ⟨hlei, hi⟩ := List.mk_mem_zipIdx_iff_le_and_getElem?_sub.1 hi
      obtain ⟨hlej, hj⟩ := List.mk_mem_zipIdx_iff_le_and_getElem?_sub.1 hj
      have hplace := place_unique hnodup hi hj
      obtain rfl : i = j := by omega
      rfl

namespace Planner

variable {α : Type} [Scalar α] {planner : Planner α} {workflow : Workflow α}

/-- The jobs that have windows on the nodes. -/
def windowJobs (planner : Planner α) : List JobRef :=
  planner.timelines.windows.map Window.job

/-- The jobs of a workflow that got a plan, none if it got no plan. -/
def answerJobs (answer : Workflow α × Except (PlanFault α) (Plan α)) : List JobRef :=
  if answer.2.isOk then answer.1.jobIds.map fun job => ⟨answer.1.id, job⟩ else []

/-- A call keeps the number of a workflow and the numbers of its jobs. -/
theorem plan_ids (planner : Planner α) (workflow : Workflow α) :
    (planner.plan workflow).workflow.id = workflow.id ∧
      (planner.plan workflow).workflow.jobIds = workflow.jobIds := by
  have hjobs : ∀ other : Workflow α, other.unplanned.jobIds = other.jobIds := by
    intro other
    unfold Workflow.jobIds Workflow.unplanned
    rw [List.map_map]
    rfl
  have hsame := planner.plan_unplanned workflow
  have hid : (planner.plan workflow).workflow.unplanned.id = workflow.unplanned.id :=
    congrArg Workflow.id hsame
  exact ⟨hid, by rw [← hjobs, hsame, hjobs]⟩

/-- A call with an arranged workflow keeps a timeline for each node. It adds a window for each job
of a workflow that gets a plan, and no other windows. -/
theorem plan_windowJobs (hcatalog : planner.catalog.Drafted) (harranged : workflow.Arranged)
    (hlength : planner.timelines.nodes.length = planner.catalog.nodes.length) :
    (planner.plan workflow).planner.timelines.nodes.length =
        (planner.plan workflow).planner.catalog.nodes.length ∧
      (planner.plan workflow).planner.windowJobs.Perm (planner.windowJobs ++
        answerJobs ((planner.plan workflow).workflow, (planner.plan workflow).result)) := by
  obtain ⟨hid, hjobs⟩ := planner.plan_ids workflow
  unfold answerJobs
  rw [hid, hjobs]
  by_cases hne : workflow.jobs = []
  · rw [plan_of_jobs_eq_nil planner hne]
    exact ⟨hlength, by simp [Except.isOk, Except.toBool]⟩
  · -- The call leaves the windows as they were, or commits one of its attempts.
    obtain ⟨metrics, attempts, generator, -, -, -, hsolves, hplan | hplan⟩ :=
      plan_of_arranged harranged hne planner
    · rw [hplan.1]
      exact ⟨hlength, by simp [Except.isOk, Except.toBool, windowJobs]⟩
    · obtain ⟨attempt, hattempt, -, progress, hplan⟩ := hplan
      have hsolution := (hsolves attempt hattempt).2
      have ⟨pass, hreached, hperm, hsame⟩ := hsolution
      obtain ⟨placements, -, horder⟩ := Pass.solution_eq_ok hsame
      rw [hplan]
      refine ⟨hsolution.length_timelines.trans hlength,
        (hsolution.jobs_perm hcatalog hlength).trans (List.Perm.append_left _ ?_)⟩
      rw [horder]
      exact hperm.map _

/-- A batch adds a window for each job of the workflows that get plans, and no other windows. -/
theorem planAll_windowJobs (hcatalog : planner.catalog.Drafted)
    (hlength : planner.timelines.nodes.length = planner.catalog.nodes.length)
    {workflows : List (Workflow α)} (harranged : ∀ workflow ∈ workflows, workflow.Arranged) :
    (planner.planAll workflows).1.windowJobs.Perm
      (planner.windowJobs ++ (planner.planAll workflows).2.flatMap answerJobs) := by
  induction workflows generalizing planner with
  | nil => simp [planAll]
  | cons workflow rest ih =>
      rw [List.forall_mem_cons] at harranged
      obtain ⟨hkept, hperm⟩ := plan_windowJobs hcatalog harranged.1 hlength
      have hsame := (planner.plan_setup workflow).1
      have hrest := ih (by rw [hsame]; exact hcatalog) hkept harranged.2
      refine hrest.trans ((hperm.append_right _).trans ?_)
      rw [List.append_assoc]
      rfl

/-- The answers of a batch have the numbers of its workflows and of their jobs. -/
theorem planAll_ids (planner : Planner α) (workflows : List (Workflow α)) :
    (planner.planAll workflows).2.map (fun answer => (answer.1.id, answer.1.jobIds)) =
      workflows.map fun workflow => (workflow.id, workflow.jobIds) := by
  induction workflows generalizing planner with
  | nil => rfl
  | cons workflow rest ih =>
      obtain ⟨hid, hjobs⟩ := planner.plan_ids workflow
      rw [List.map_cons, ← ih (planner.plan workflow).planner, ← hid, ← hjobs]
      rfl

omit [Scalar α] in
/-- Workflows with numbers of their own have no job in common. -/
theorem answerJobs_nodup {answers : List (Workflow α × Except (PlanFault α) (Plan α))}
    (hids : (answers.map fun answer => answer.1.id).Nodup)
    (hjobs : ∀ answer ∈ answers, answer.1.jobIds.Nodup) :
    (answers.flatMap answerJobs).Nodup := by
  have hmem : ∀ answer : Workflow α × Except (PlanFault α) (Plan α), ∀ job ∈ answerJobs answer,
      job.workflow = answer.1.id := by
    intro answer job hjob
    unfold answerJobs at hjob
    split at hjob
    · obtain ⟨id, -, rfl⟩ := List.mem_map.1 hjob
      rfl
    · cases hjob
  rw [List.nodup_flatMap]
  constructor
  · intro answer hanswer
    unfold answerJobs
    split
    · exact (hjobs answer hanswer).map fun a b h => congrArg JobRef.job h
    · exact List.nodup_nil
  · refine (List.pairwise_map.1 hids).imp fun {a b} hne job hjob hother => hne ?_
    rw [← hmem a job hjob, ← hmem b job hother]

/-- The first batch of a planner leaves a window for each job of the workflows that get plans. If
the workflows have numbers of their own, no two windows belong to the same job. -/
theorem planBatch_windowJobs {catalog : Catalog α} (hcatalog : catalog.Drafted)
    (settings : Settings α) (order : SubmissionOrder) {workflows : List (Workflow α)}
    (harranged : ∀ workflow ∈ workflows, workflow.Arranged) :
    ((Planner.start catalog settings).planBatch order workflows).1.windowJobs.Perm
        (((Planner.start catalog settings).planBatch order workflows).2.flatMap answerJobs) ∧
      ((workflows.map Workflow.id).Nodup →
        ((Planner.start catalog settings).planBatch order workflows).1.windowJobs.Nodup) := by
  have hsorted := workflows.mergeSort_perm fun a b => (order.compare a b).isLE
  have hall : ∀ workflow ∈ order.sort workflows, workflow.Arranged :=
    fun workflow hmem => harranged workflow (hsorted.mem_iff.1 hmem)
  have hnone : (Planner.start catalog settings).windowJobs = [] := by
    simp [windowJobs, Planner.start, Timelines.idle, Timelines.windows, Timeline.idle]
  have hstart : (Planner.start catalog settings).catalog.Drafted := hcatalog
  have hperm := planAll_windowJobs hstart (by simp [Planner.start, Timelines.idle]) hall
  rw [hnone, List.nil_append] at hperm
  have hanswers := planAll_ids (.start catalog settings) (order.sort workflows)
  refine ⟨hperm, fun hids => hperm.nodup_iff.2 (answerJobs_nodup ?_ fun answer hanswer => ?_)⟩
  · have hnumbers := congrArg (List.map Prod.fst) hanswers
    simp only [List.map_map] at hnumbers
    exact hnumbers ▸ (hsorted.map Workflow.id).nodup_iff.2 hids
  · have hmem : (answer.1.id, answer.1.jobIds) ∈
        (order.sort workflows).map fun workflow => (workflow.id, workflow.jobIds) :=
      hanswers ▸ List.mem_map_of_mem hanswer
    obtain ⟨workflow, hworkflow, hsame⟩ := List.mem_map.1 hmem
    rw [← (Prod.mk.inj hsame).2]
    exact (hall workflow hworkflow).nodup_jobIds

end Planner

namespace CommandLine.Planning

variable {σ : Type} {files : FileAccess (StateM σ)}

/-- A file was read with some text, at some time. -/
def Reads (files : FileAccess (StateM σ)) (path text : String) : Prop :=
  ∃ before after, (files.read path).run before = (.ok text, after)

section Loading

variable {α β γ ε : Type} {before after : σ}

/-- A computation that stops at the fault of its first part succeeds only if both parts do. -/
theorem run_bind_eq_ok {first : StateM σ (Except ε β)} {next : Except ε β → StateM σ (Except ε γ)}
    {c : γ} (h : (first >>= next).run before = (.ok c, after))
    (hstop : ∀ fault state, (next (.error fault)).run state = (.error fault, state)) :
    ∃ b following, first.run before = (.ok b, following) ∧
      (next (.ok b)).run following = (.ok c, after) := by
  change (next (first.run before).1).run (first.run before).2 = _ at h
  cases hfirst : first.run before with
  | mk result following =>
      rw [hfirst] at h
      cases result with
      | error fault => cases (hstop fault following).symm.trans h
      | ok b => exact ⟨b, following, rfl, h⟩

/-- A file that is taken in was read. -/
theorem load_eq_ok {kind : DocumentKind} {path : String}
    {ofText : String → Except (LoadFault α) β} {value : β}
    (h : (load files kind path ofText).run before = (.ok value, after)) :
    ∃ text, Reads files path text ∧ ofText text = .ok value := by
  rw [load, StateT.run_bind] at h
  cases hread : (files.read path).run before with
  | mk result following =>
      rw [hread] at h
      cases result with
      | error fault => cases (Prod.mk.inj h).1
      | ok text => exact ⟨text, ⟨_, _, hread⟩, LoadFault.within_eq_ok.1 (Prod.mk.inj h).1⟩

variable [Scalar α] [Numeral α] {catalog : Catalog α}

/-- Workflow files that are taken in describe the workflows one by one, and the default numbers count
on from the first one. -/
theorem loadWorkflows_eq_ok {first : WorkflowId} {paths : List String}
    {workflows : List (Workflow α)}
    (h : (loadWorkflows files catalog first paths).run before = (.ok workflows, after)) :
    ∃ entries : List (WorkflowFile α),
      List.Forall₂ (fun path entry => ∃ text, Reads files path text ∧
        WorkflowFile.ofText text = .ok entry) paths entries ∧
      List.Forall₂ (fun entry workflow => entry.1.toWorkflow entry.2 catalog = .ok workflow)
        (entries.zipIdx first) workflows := by
  induction paths generalizing first before after workflows with
  | nil =>
      cases h
      exact ⟨[], .nil, .nil⟩
  | cons path rest ih =>
      rw [loadWorkflows] at h
      obtain ⟨entry, following, hload, hnext⟩ := run_bind_eq_ok h fun _ _ => rfl
      dsimp only at hnext
      split at hnext
      · cases (Prod.mk.inj hnext).1
      · rename_i workflow hworkflow
        obtain ⟨others, last, hothers, hlast⟩ := run_bind_eq_ok hnext fun _ _ => rfl
        cases hlast
        obtain ⟨entries, hentries, hworkflows⟩ := ih hothers
        exact ⟨entry :: entries, .cons (load_eq_ok hload) hentries, .cons hworkflow hworkflows⟩

/-- All that a call names was taken in from the files: a catalog, from which the planner starts, and
the workflow files. -/
theorem loadAll_eq_ok {planning : Planning α} {planner : Planner α} {workflows : List (Workflow α)}
    (h : (planning.loadAll files).run before = (.ok (planner, workflows), after)) :
    ∃ (text : String) (setup : Setup α) (settings : Settings α) (entries : List (WorkflowFile α)),
      Setup.ofText text = .ok setup ∧ planner = .start setup.catalog settings ∧
      List.Forall₂ (fun path entry => ∃ text, Reads files path text ∧
        WorkflowFile.ofText text = .ok entry) planning.workflows entries ∧
      List.Forall₂ (fun entry workflow => entry.1.toWorkflow entry.2 setup.catalog = .ok workflow)
        (entries.zipIdx 1) workflows := by
  rw [loadAll] at h
  obtain ⟨setup, following, hload, hnext⟩ := run_bind_eq_ok h fun _ _ => rfl
  dsimp only at hnext
  split at hnext
  · cases (Prod.mk.inj hnext).1
  · rename_i settings hsettings
    obtain ⟨loaded, last, hloaded, hlast⟩ := run_bind_eq_ok hnext fun _ _ => rfl
    cases hlast
    obtain ⟨text, -, htext⟩ := load_eq_ok hload
    obtain ⟨entries, hentries, hworkflows⟩ := loadWorkflows_eq_ok hloaded
    exact ⟨text, setup, settings, entries, htext, rfl, hentries, hworkflows⟩

omit [Numeral α] in
/-- The numbers of the workflows that are taken in are those of their files. -/
theorem ids_eq_numbersFrom {first : WorkflowId} {entries : List (WorkflowFile α)}
    {workflows : List (Workflow α)}
    (h : List.Forall₂ (fun entry workflow => entry.1.toWorkflow entry.2 catalog = .ok workflow)
      (entries.zipIdx first) workflows) :
    workflows.map Workflow.id = numbersFrom first (entries.map WorkflowFile.id) := by
  induction entries generalizing first workflows with
  | nil =>
      cases h
      rfl
  | cons entry rest ih =>
      cases h with
      | cons hworkflow hrest =>
          rw [List.map_cons, ih hrest, (WorkflowFile.toWorkflow_eq_ok hworkflow).1]
          rfl

end Loading

/-- Links without a limit count as valid among floats. -/
theorem unlimited_valid : Network.ofBandwidths Scalar.infinity Scalar.infinity =
    .ok (Network.unlimited : Network Float) := by
  have hdefined : Scalar.isNaN (Scalar.infinity : Float) = false := by decide
  have hpos : ¬ (Scalar.infinity : Float) ≤ 0 := by decide +kernel
  simp [Network.ofBandwidths, Network.unlimited, hdefined, hpos]

/-- The workflows of a run have the numbers that their files state, or their places in the call.
These differ just when the stated ones do and none of them is the place of a file that states none.
The run leaves a window for each job of the workflows that get plans, and if the numbers differ, no
two windows on any node belong to the same job. -/
theorem jobs_unique {planning : Planning Float} {planner : Planner Float}
    {workflows : List (Workflow Float)} {before after : σ}
    (h : (planning.loadAll files).run before = (.ok (planner, workflows), after)) :
    ∃ entries : List (WorkflowFile Float),
      List.Forall₂ (fun path entry => ∃ text, Reads files path text ∧
        WorkflowFile.ofText text = .ok entry) planning.workflows entries ∧
      workflows.map Workflow.id = numbersFrom 1 (entries.map WorkflowFile.id) ∧
      ((workflows.map Workflow.id).Nodup ↔ ((entries.map WorkflowFile.id).filterMap id).Nodup ∧
        ∀ place, (none, place) ∈ (entries.map WorkflowFile.id).zipIdx 1 →
          some place ∉ entries.map WorkflowFile.id) ∧
      (planner.planBatch planning.order workflows).1.windowJobs.Perm
        ((planner.planBatch planning.order workflows).2.flatMap Planner.answerJobs) ∧
      ((workflows.map Workflow.id).Nodup →
        (planner.planBatch planning.order workflows).1.windowJobs.Nodup) := by
  obtain ⟨text, setup, settings, entries, hsetup, rfl, hentries, hworkflows⟩ := loadAll_eq_ok h
  have hcatalog : setup.catalog.Drafted := by
    unfold Setup.ofText at hsetup
    split at hsetup
    · exact PlanningDocument.drafted_of_setup unlimited_valid hsetup
    · cases hsetup
  have harranged : ∀ workflow ∈ workflows, workflow.Arranged := by
    intro workflow hworkflow
    obtain ⟨entry, -, hentry⟩ := forall₂_exists_left hworkflows hworkflow
    exact (WorkflowFile.toWorkflow_eq_ok hentry).2.1.arranged
  have hids := ids_eq_numbersFrom hworkflows
  exact ⟨entries, hentries, hids, hids ▸ numbers_nodup_iff 1 _,
    Planner.planBatch_windowJobs hcatalog settings planning.order harranged⟩

end CommandLine.Planning

/-!
## Two files under one number

The first file states the number that is the place of the second one, which states none.
-/

namespace Collision

open CommandLine

/-- The text of a file. -/
def text? (path : String) : Option String :=
  List.lookup path
    [("sites.yaml", "sites:\n  a:\n    prices: [1]\n    nodes:\n      n:\n        levels:\n" ++
        "        - speed: 2\n          power: 3\n"),
      ("first.yaml", "name: first\nid: 2\njobs:\n- name: x\n  length: 4\n"),
      ("second.yaml", "name: second\njobs:\n- name: y\n  length: 6\n")]

def files : FileAccess (StateM Unit) where
  read path := pure (match text? path with
    | some text => .ok text
    | none => .error .missing)
  write _ _ := pure (.ok ())

def planning (workflows : List String) : Planning Float :=
  ⟨"sites.yaml", workflows, none, none, none, .byId⟩

/-- What a call takes in. -/
def load (workflows : List String) :
    Except (LoadFault Float) (Planner Float × List (Workflow Float)) :=
  (((planning workflows).loadAll files).run ()).1

/-- The numbers that the files of a call state. -/
def stated (workflows : List String) : List (Option WorkflowId) :=
  workflows.filterMap fun path =>
    (text? path).bind fun text =>
      match (WorkflowFile.ofText text : Except (LoadFault Float) (WorkflowFile Float)) with
      | .ok file => some file.id
      | .error _ => none

/-- The numbers of the workflows that a call takes in. -/
def ids (workflows : List String) : List WorkflowId :=
  match load workflows with
  | .ok (_, workflows) => workflows.map Workflow.id
  | .error _ => []

theorem exists_load {paths : List String} {numbers : List WorkflowId} (h : ids paths = numbers)
    (hne : numbers ≠ []) : ∃ planner workflows,
      ((planning paths).loadAll files).run () = (.ok (planner, workflows), ()) ∧
        workflows.map Workflow.id = numbers := by
  unfold ids at h
  split at h
  · rename_i planner workflows hload
    unfold load at hload
    exact ⟨planner, workflows, Prod.ext hload (Subsingleton.elim _ _), h⟩
  · exact absurd h.symm hne

/-- With the files the other way round, each gets a number of its own, and so does each job. -/
theorem swapped_jobs_unique : ∃ planner workflows,
    ((planning ["second.yaml", "first.yaml"]).loadAll files).run () =
        (.ok (planner, workflows), ()) ∧
      workflows.map Workflow.id = [1, 2] ∧
      (planner.planBatch .byId workflows).1.windowJobs.Nodup := by
  have hids : ids ["second.yaml", "first.yaml"] = [1, 2] := by decide +kernel
  obtain ⟨planner, workflows, hload, hnumbers⟩ := exists_load hids (by decide)
  obtain ⟨-, -, -, -, -, hnodup⟩ := Planning.jobs_unique hload
  refine ⟨planner, workflows, hload, hnumbers, hnodup ?_⟩
  rw [hnumbers]
  decide

/-- The stated numbers differ, and yet both workflows get one number. -/
theorem stated_numbers_differ :
    ((stated ["first.yaml", "second.yaml"]).filterMap id).Nodup ∧
      ids ["first.yaml", "second.yaml"] = [2, 2] := by
  have hstated : stated ["first.yaml", "second.yaml"] = [some 2, none] := by decide +kernel
  refine ⟨?_, by decide +kernel⟩
  rw [hstated]
  decide

end Collision

end WattPlan
