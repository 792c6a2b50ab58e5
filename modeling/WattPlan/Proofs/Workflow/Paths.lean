import Mathlib.Data.List.Chain
import Mathlib.Order.Bounds.Basic
import Mathlib.Tactic.Linarith
import Mathlib.Tactic.LinearCombination
import Mathlib.Tactic.Ring
import WattPlan.Proofs.Precedence

/-!
# Paths of a workflow and their totals

A path is a row of jobs each of which is a parent of the next one. Its total is what its jobs weigh
and what the dependencies between them weigh. A path that ends in a job is the job alone, or it comes
through a parent (`Arranged.mem_totalsTo`); one that starts in a job is the job alone, or it goes on
in a child (`Arranged.mem_totalsFrom`). Where two paths meet in a job, they join
(`Workflow.isPath_join`, `pathTotal_join`), so that the largest totals up to a job and from it on make
up the largest total through it: `Workflow.join_le_longest`.
-/

namespace WattPlan

section Totals

variable {K : Type} [Field K] {w : JobId → K} {c : JobId → JobId → K}

/-- What the jobs of a row weigh, and what lies between each of them and the next one. -/
def pathTotal (w : JobId → K) (c : JobId → JobId → K) : List JobId → K
  | [] => 0
  | [job] => w job
  | job :: next :: rest => w job + c job next + pathTotal w c (next :: rest)

/-- Two rows that meet in a job count it twice. -/
theorem pathTotal_join (front : List JobId) (job : JobId) (back : List JobId) :
    pathTotal w c (front ++ job :: back) + w job =
      pathTotal w c (front ++ [job]) + pathTotal w c (job :: back) := by
  induction front with
  | nil => exact add_comm _ _
  | cons first rest ih =>
      cases rest with
      | nil =>
          simp only [List.cons_append, List.nil_append, pathTotal]
          ring
      | cons second rest =>
          simp only [List.cons_append] at ih
          simp only [List.cons_append, pathTotal]
          linear_combination ih

end Totals

namespace Workflow

variable {α K : Type} [Field K] {workflow : Workflow α} {w : JobId → K} {c : JobId → JobId → K}

/-- A row of jobs of the workflow, each of them a parent of the next one. -/
def IsPath (workflow : Workflow α) (path : List JobId) : Prop :=
  (∀ id ∈ path, id ∈ workflow.jobIds) ∧
    path.IsChain fun parent child => parent ∈ workflow.parentsOf child

/-- The row without jobs is a path. -/
theorem isPath_nil : workflow.IsPath [] :=
  ⟨by simp, List.isChain_nil⟩

/-- A job alone is a path. -/
theorem isPath_singleton {job : JobId} : workflow.IsPath [job] ↔ job ∈ workflow.jobIds := by
  simp [IsPath]

/-- Two paths that meet in a job make up one. -/
theorem isPath_join {front back : List JobId} {job : JobId} :
    workflow.IsPath (front ++ job :: back) ↔
      workflow.IsPath (front ++ [job]) ∧ workflow.IsPath (job :: back) := by
  simp only [IsPath, List.mem_append, List.mem_cons]
  rw [List.isChain_split]
  constructor
  · rintro ⟨hjobs, hfront, hback⟩
    refine ⟨⟨fun id hid => hjobs id ?_, hfront⟩, fun id hid => hjobs id (.inr hid), hback⟩
    simpa [or_assoc] using Or.imp_right (Or.imp_right fun h => absurd h List.not_mem_nil) hid
  · rintro ⟨⟨hjobs, hfront⟩, hjobs', hback⟩
    exact ⟨fun id hid => hid.elim (fun h => hjobs id (.inl h)) (hjobs' id), hfront, hback⟩

/-- The totals of the paths that end in a job. -/
def totalsTo (workflow : Workflow α) (w : JobId → K) (c : JobId → JobId → K) (job : JobId) : Set K :=
  {total | ∃ front, workflow.IsPath (front ++ [job]) ∧ pathTotal w c (front ++ [job]) = total}

/-- The totals of the paths that start in a job. -/
def totalsFrom (workflow : Workflow α) (w : JobId → K) (c : JobId → JobId → K) (job : JobId) :
    Set K :=
  {total | ∃ back, workflow.IsPath (job :: back) ∧ pathTotal w c (job :: back) = total}

/-- The totals of all paths. -/
def totals (workflow : Workflow α) (w : JobId → K) (c : JobId → JobId → K) : Set K :=
  {total | ∃ path, workflow.IsPath path ∧ pathTotal w c path = total}

namespace Arranged

variable {job : Job α} {total : K}

/-- A path that ends in a job is the job alone, or it comes through a parent. -/
theorem mem_totalsTo (h : workflow.Arranged) (hjob : job ∈ workflow.jobs) :
    total ∈ workflow.totalsTo w c job.id ↔ total = w job.id ∨
      ∃ parent ∈ job.parents, ∃ t ∈ workflow.totalsTo w c parent,
        total = t + c parent job.id + w job.id := by
  have hsnoc : ∀ front parent, pathTotal w c (front ++ [parent] ++ [job.id]) =
      pathTotal w c (front ++ [parent]) + c parent job.id + w job.id := by
    intro front parent
    have hjoin := pathTotal_join (w := w) (c := c) front parent [job.id]
    simp only [pathTotal] at hjoin
    rw [List.append_assoc, List.singleton_append]
    linear_combination hjoin
  constructor
  · rintro ⟨front, hpath, rfl⟩
    rcases List.eq_nil_or_concat' front with rfl | ⟨front, parent, rfl⟩
    · exact .inl rfl
    · rw [hsnoc]
      rw [List.append_assoc, List.singleton_append, isPath_join] at hpath
      have hparent := (List.isChain_cons_cons.1 hpath.2.2).1
      rw [h.parentsOf_id hjob] at hparent
      exact .inr ⟨parent, hparent, _, ⟨front, hpath.1, rfl⟩, rfl⟩
  · have hmem : job.id ∈ workflow.jobIds := List.mem_map_of_mem hjob
    rintro (rfl | ⟨parent, hparent, t, ⟨front, hpath, rfl⟩, rfl⟩)
    · exact ⟨[], isPath_singleton.2 hmem, rfl⟩
    · refine ⟨front ++ [parent], ?_, hsnoc front parent⟩
      rw [← h.parentsOf_id hjob] at hparent
      rw [List.append_assoc, List.singleton_append, isPath_join]
      refine ⟨hpath, fun id hid => ?_, List.isChain_pair.2 hparent⟩
      rcases List.mem_cons.1 hid with rfl | hid
      · exact hpath.1 _ (by simp)
      · rwa [List.mem_singleton.1 hid]

/-- A path that starts in a job is the job alone, or it goes on in a child. -/
theorem mem_totalsFrom (h : workflow.Arranged) (hjob : job ∈ workflow.jobs) :
    total ∈ workflow.totalsFrom w c job.id ↔ total = w job.id ∨
      ∃ child ∈ job.children, ∃ t ∈ workflow.totalsFrom w c child,
        total = t + c job.id child + w job.id := by
  have hmem : job.id ∈ workflow.jobIds := List.mem_map_of_mem hjob
  have hcons : ∀ child back, pathTotal w c (job.id :: child :: back) =
      pathTotal w c (child :: back) + c job.id child + w job.id := by
    intro child back
    rw [pathTotal]
    ring
  constructor
  · rintro ⟨back, hpath, rfl⟩
    cases back with
    | nil => exact .inl rfl
    | cons child back =>
        obtain ⟨hparent, hchain⟩ := List.isChain_cons_cons.1 hpath.2
        have hrest : workflow.IsPath (child :: back) :=
          ⟨fun id hid => hpath.1 id (List.mem_cons_of_mem _ hid), hchain⟩
        exact .inr ⟨child, (h.mem_children_iff hjob).2 hparent, _, ⟨back, hrest, rfl⟩,
          hcons child back⟩
  · rintro (rfl | ⟨child, hchild, t, ⟨back, hpath, rfl⟩, rfl⟩)
    · exact ⟨[], isPath_singleton.2 hmem, rfl⟩
    · refine ⟨child :: back, ⟨List.forall_mem_cons.2 ⟨hmem, hpath.1⟩, ?_⟩, hcons child back⟩
      exact List.isChain_cons_cons.2 ⟨(h.mem_children_iff hjob).1 hchild, hpath.2⟩

end Arranged

/-- A path is empty, or it ends in one of the jobs. -/
theorem mem_totals_iff_last {total : K} : total ∈ workflow.totals w c ↔
    total = 0 ∨ ∃ id ∈ workflow.jobIds, total ∈ workflow.totalsTo w c id := by
  constructor
  · rintro ⟨path, hpath, rfl⟩
    rcases List.eq_nil_or_concat' path with rfl | ⟨front, id, rfl⟩
    · exact .inl rfl
    · exact .inr ⟨id, hpath.1 id (by simp), front, hpath, rfl⟩
  · rintro (rfl | ⟨id, -, front, hpath, rfl⟩)
    · exact ⟨[], isPath_nil, rfl⟩
    · exact ⟨_, hpath, rfl⟩

/-- A path is empty, or it starts in one of the jobs. -/
theorem mem_totals_iff_first {total : K} : total ∈ workflow.totals w c ↔
    total = 0 ∨ ∃ id ∈ workflow.jobIds, total ∈ workflow.totalsFrom w c id := by
  constructor
  · rintro ⟨path, hpath, rfl⟩
    cases path with
    | nil => exact .inl rfl
    | cons id back => exact .inr ⟨id, hpath.1 id List.mem_cons_self, back, hpath, rfl⟩
  · rintro (rfl | ⟨id, -, back, hpath, rfl⟩)
    · exact ⟨[], isPath_nil, rfl⟩
    · exact ⟨_, hpath, rfl⟩

section Longest

variable [LinearOrder K] {id : JobId} {before after longest : K}

/-- The longest paths to a job and from it on make up one that is no longer than the longest path of
all, and just as long if and only if the job lies on such a path. -/
theorem join_le_longest [IsStrictOrderedRing K]
    (hbefore : IsGreatest (workflow.totalsTo w c id) before)
    (hafter : IsGreatest (workflow.totalsFrom w c id) after)
    (hlongest : IsGreatest (workflow.totals w c) longest) :
    before + after - w id ≤ longest ∧ (before + after - w id = longest ↔
      ∃ path, workflow.IsPath path ∧ id ∈ path ∧ pathTotal w c path = longest) := by
  obtain ⟨⟨front, hfront, rfl⟩, hbefore⟩ := hbefore
  obtain ⟨⟨back, hback, rfl⟩, hafter⟩ := hafter
  have hjoin := pathTotal_join (w := w) (c := c) front id back
  have hpath := isPath_join.2 ⟨hfront, hback⟩
  have heq : pathTotal w c (front ++ [id]) + pathTotal w c (id :: back) - w id =
      pathTotal w c (front ++ id :: back) := by linear_combination -hjoin
  rw [heq]
  have hle : pathTotal w c (front ++ id :: back) ≤ longest := hlongest.2 ⟨_, hpath, rfl⟩
  refine ⟨hle, fun hsame => ⟨_, hpath, by simp, hsame⟩, ?_⟩
  rintro ⟨path, hother, hid, rfl⟩
  -- A longest path through the job is no longer than the two longest parts.
  obtain ⟨front', back', rfl⟩ := List.append_of_mem hid
  obtain ⟨hfront', hback'⟩ := isPath_join.1 hother
  have hjoin' := pathTotal_join (w := w) (c := c) front' id back'
  have hle₁ := hbefore ⟨front', hfront', rfl⟩
  have hle₂ := hafter ⟨back', hback', rfl⟩
  linarith

/-- Where there is a job and no weight is negative, a longest path has a job. -/
theorem exists_longest_ne_nil (hweight : ∀ id ∈ workflow.jobIds, 0 ≤ w id)
    (hlongest : IsGreatest (workflow.totals w c) longest) (hne : workflow.jobs ≠ []) :
    ∃ path, path ≠ [] ∧ workflow.IsPath path ∧ pathTotal w c path = longest := by
  obtain ⟨⟨path, hpath, rfl⟩, hlongest⟩ := hlongest
  cases path with
  | cons first rest => exact ⟨first :: rest, List.cons_ne_nil _ _, hpath, rfl⟩
  | nil =>
      obtain ⟨job, hjob⟩ := List.exists_mem_of_ne_nil _ hne
      have hmem : job.id ∈ workflow.jobIds := List.mem_map_of_mem hjob
      have hsingle := isPath_singleton.2 hmem
      have hle : w job.id ≤ 0 := hlongest ⟨[job.id], hsingle, rfl⟩
      exact ⟨[job.id], List.cons_ne_nil _ _, hsingle, le_antisymm hle (hweight _ hmem)⟩

end Longest

end Workflow

end WattPlan
