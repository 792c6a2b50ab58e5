import WattPlan.Proofs.Pass.OrderCheck
import WattPlan.Proofs.Pass.Turns

/-!
# Every pass is completed

In an arranged workflow a due job has a request, so a sweep never fails (`Takes.sweep_ok`); `Swept`
says which jobs it leaves. Among waiting jobs one of the least depth is due (`exists_due`), so every
sweep makes progress (`Swept.progress`) and the sweeps place all jobs (`Takes.sweeps_ok`). A pass
that has placed all jobs passes the check of its order and has a solution: `run_ok`. Whatever the
order was, a run that succeeds has taken one turn for each job, and it settles where these turns do:
`exists_takes_of_run`.
-/

namespace WattPlan

/-- The placements of a solution in the order in which they were made. -/
def Solution.placed {α : Type} (solution : Solution α) : List (Placement α) :=
  solution.commitOrder.filterMap fun id => solution.placements[id]?

namespace Pass

open Trial

variable {α : Type} [Scalar α] {pass : Pass α} {problem : Problem α} {timelines : Timelines α}
  {job : Job α} {request : Request α}

/-- A solution is that of a pass which has placed every job of its workflow. -/
def Solves (problem : Problem α) (timelines : Timelines α) (solution : Solution α) : Prop :=
  ∃ pass : Pass α, Reached problem timelines pass ∧
    pass.commitOrder.Perm problem.workflow.jobIds ∧
    pass.solution problem.workflow = .ok solution

/-- The request for a job whose parents are placed is made. -/
theorem request_of_parents (harranged : problem.workflow.Arranged)
    (hjob : job ∈ problem.workflow.jobs)
    (hparents : ∀ parent ∈ job.parents, pass.isPlaced parent = true) :
    ∃ request, pass.request problem job = .ok request := by
  have harrival : ∀ parent ∈ job.parents,
      ∃ arrival, pass.arrivalFrom problem.workflow job parent = .ok arrival := by
    intro parent hparent
    obtain ⟨placement, hplacement⟩ := Option.isSome_iff_exists.1 (hparents parent hparent)
    obtain ⟨writer, hwriter, -⟩ := harranged.parent hjob hparent
    exact ⟨_, by rw [arrivalFrom, hplacement, hwriter]⟩
  obtain ⟨arrivals, harrivals⟩ := exists_forall₂ harrival
  exact ⟨_, bind_eq_ok (mapM_eq_ok_iff.2 harrivals) rfl⟩

/-- The request for a due job is made. -/
theorem request_of_isDue (harranged : problem.workflow.Arranged)
    (hjob : job ∈ problem.workflow.jobs) (hdue : pass.isDue job = true) :
    ∃ request, pass.request problem job = .ok request := by
  simp only [isDue, Bool.and_eq_true, List.all_eq_true] at hdue
  exact request_of_parents harranged hjob hdue.2

/-- Placing a job searches a candidate for it and commits that. -/
theorem place_run (hrequest : pass.request problem job = .ok request) (generator : Generator) :
    (pass.place problem job).run generator =
      (.ok (pass.commit problem job (request.search.run generator).1),
        (request.search.run generator).2) := by
  unfold place
  rw [run_bind, run_known, hrequest]
  rfl

omit [Scalar α] in
/-- While jobs wait, one of them is due: at the latest one of the least depth. -/
theorem exists_due (harranged : problem.workflow.Arranged) {waiting : List JobId}
    (hperm : (waiting ++ pass.commitOrder).Perm problem.workflow.jobIds) (hne : waiting ≠ []) :
    ∃ id ∈ waiting, ∃ job, problem.workflow.job? id = some job ∧ pass.isDue job = true := by
  have hnodup : (waiting ++ pass.commitOrder).Nodup := hperm.nodup_iff.2 harranged.nodup_jobIds
  -- By induction on the depth: a job that is not due has a waiting parent, of less depth.
  have hfrom : ∀ depth, ∀ id ∈ waiting, problem.workflow.depthOf id = depth →
      ∃ id ∈ waiting, ∃ job, problem.workflow.job? id = some job ∧ pass.isDue job = true := by
    intro depth
    induction depth using Nat.strongRecOn with
    | ind depth ih =>
        intro id hid hdepth
        have hmem := hperm.mem_iff.1 (List.mem_append_left _ hid)
        obtain ⟨job, hjob⟩ := Workflow.job?_isSome (harranged.mem_jobIds.1 hmem)
        have hunplaced : pass.isPlaced job.id = false := by
          rw [harranged.id_eq hjob, Bool.eq_false_iff, ne_eq, isPlaced_iff]
          exact fun hplaced => (List.nodup_append.1 hnodup).2.2 id hid id hplaced rfl
        by_cases hparents : job.parents.all pass.isPlaced = true
        · exact ⟨id, hid, job, hjob, by rw [isDue, hunplaced, hparents]; rfl⟩
        · simp only [List.all_eq_true, not_forall] at hparents
          obtain ⟨parent, hparent, hwaits⟩ := hparents
          rw [← harranged.parentsOf_id (Workflow.mem_of_job? hjob), harranged.id_eq hjob] at hparent
          obtain ⟨hupper, hless⟩ := harranged.parentsOf_lt hmem hparent
          have hparentwaits : parent ∈ waiting := by
            rcases List.mem_append.1 (hperm.mem_iff.2 hupper) with hwaiting | hplaced
            · exact hwaiting
            · exact absurd (isPlaced_iff.2 hplaced) hwaits
          exact ih _ (hdepth ▸ hless) parent hparentwaits rfl
  obtain ⟨id, hid⟩ := List.exists_mem_of_ne_nil waiting hne
  exact hfrom _ id hid rfl

/-- What a sweep over jobs makes of a pass: it places some of the jobs and leaves the others. -/
structure Swept (workflow : Workflow α) (ids : List JobId) (pass last : Pass α)
    (left : List JobId) : Prop where
  perm : (left ++ last.commitOrder).Perm (ids ++ pass.commitOrder)
  grows : pass.commitOrder ⊆ last.commitOrder
  sublist : left.Sublist ids
  /-- A job that is left is placed already, or one of its parents was not placed before. -/
  waits : ∀ id ∈ left, ∀ job, workflow.job? id = some job →
    id ∈ last.commitOrder ∨ ∃ parent ∈ job.parents, parent ∉ pass.commitOrder

namespace Swept

variable {workflow : Workflow α} {ids left : List JobId} {next last : Pass α} {id : JobId}

omit [Scalar α] in
/-- A sweep over no jobs leaves none. -/
theorem nil : Swept workflow [] pass pass [] :=
  ⟨.refl _, List.Subset.refl _, .refl _, by simp⟩

omit [Scalar α] in
/-- A job is placed, and the sweep goes on. -/
theorem place (h : Swept workflow ids next last left)
    (horder : next.commitOrder = pass.commitOrder ++ [id]) :
    Swept workflow (id :: ids) pass last left := by
  have hbefore : pass.commitOrder ⊆ next.commitOrder := by
    rw [horder]
    exact List.subset_append_left _ _
  constructor
  case perm =>
    refine h.perm.trans ?_
    rw [horder, ← List.append_assoc]
    exact List.perm_append_singleton id _
  case grows => exact List.Subset.trans hbefore h.grows
  case sublist => exact h.sublist.cons id
  case waits =>
    intro other hother job hjob
    rcases h.waits other hother job hjob with hplaced | ⟨parent, hparent, hwaits⟩
    · exact .inl hplaced
    · exact .inr ⟨parent, hparent, fun hplaced => hwaits (hbefore hplaced)⟩

omit [Scalar α] in
/-- A job that is not due is left, and the sweep goes on. -/
theorem leave (h : Swept workflow ids pass last left) (harranged : workflow.Arranged)
    (hidle : ∀ job, workflow.job? id = some job → pass.isDue job = false) :
    Swept workflow (id :: ids) pass last (id :: left) := by
  constructor
  case perm => exact h.perm.cons id
  case grows => exact h.grows
  case sublist => exact h.sublist.cons_cons id
  case waits =>
    intro other hother job hjob
    rcases List.mem_cons.1 hother with rfl | hother
    · have hidle := hidle job hjob
      rw [isDue, harranged.id_eq hjob, Bool.and_eq_false_iff] at hidle
      rcases hidle with hplaced | hparents
      · exact .inl (h.grows (isPlaced_iff.1 (by simpa using hplaced)))
      · obtain ⟨parent, hparent, hwaits⟩ := List.all_eq_false.1 hparents
        exact .inr ⟨parent, hparent, fun hplaced => hwaits (isPlaced_iff.2 hplaced)⟩
    · exact h.waits other hother job hjob

omit [Scalar α] in
/-- A sweep over waiting jobs leaves fewer of them: one of them is due. -/
theorem progress (h : Swept problem.workflow ids pass last left)
    (harranged : problem.workflow.Arranged)
    (hperm : (ids ++ pass.commitOrder).Perm problem.workflow.jobIds) (hne : ids ≠ []) :
    left.length < ids.length := by
  obtain ⟨id, hid, job, hjob, hdue⟩ := exists_due harranged hperm hne
  have hnodup : (left ++ last.commitOrder).Nodup :=
    (h.perm.trans hperm).nodup_iff.2 harranged.nodup_jobIds
  refine Nat.lt_of_le_of_ne h.sublist.length_le fun hlength => ?_
  -- If as many jobs were left as there were, they were the same, and the due one among them.
  rw [← h.sublist.eq_of_length hlength] at hid
  simp only [isDue, Bool.and_eq_true, List.all_eq_true] at hdue
  rcases h.waits id hid job hjob with hplaced | ⟨parent, hparent, hwaits⟩
  · exact (List.nodup_append.1 hnodup).2.2 id hid id hplaced rfl
  · exact hwaits (isPlaced_iff.1 (hdue.2 parent hparent))

end Swept

namespace Takes

variable {turns : List (Turn α)} {generator following : Generator}

/-- A due job is placed, which is one more turn. Placing it settles where the turn does. -/
theorem place_ok (h : Takes problem timelines generator turns pass following)
    (harranged : problem.workflow.Arranged) (hjob : job ∈ problem.workflow.jobs)
    (hdue : pass.isDue job = true) :
    ∃ turn next last, (pass.place problem job).run following = (.ok next, last) ∧
      Takes problem timelines generator (turns ++ [turn]) next last ∧
      next.commitOrder = pass.commitOrder ++ [job.id] ∧
      (turn.Settles → Settles (pass.place problem job) next) := by
  obtain ⟨request, hrequest⟩ := request_of_isDue harranged hjob hdue
  refine ⟨⟨job, request, following⟩, _, _, place_run hrequest following,
    .place turns pass ⟨job, request, following⟩ h hjob hdue hrequest, ?_,
    fun hsettles other => ?_⟩
  · rw [commit_eq_extend hrequest (request.search_yields_offers following)]
    exact commitOrder_snoc
  · rw [place_run hrequest other, hsettles other]
    rfl

/-- A sweep takes the turns of the jobs that it places. It settles where they do. -/
theorem sweep_ok (h : Takes problem timelines generator turns pass following)
    (harranged : problem.workflow.Arranged) (ids : List JobId) :
    ∃ more last left final, (sweep problem ids pass).run following = (.ok (last, left), final) ∧
      Takes problem timelines generator (turns ++ more) last final ∧
      Swept problem.workflow ids pass last left ∧
      ((∀ turn ∈ more, turn.Settles) → Settles (sweep problem ids pass) (last, left)) := by
  induction ids generalizing pass turns following with
  | nil =>
      refine ⟨[], pass, [], following, rfl, ?_, .nil, fun _ _ => rfl⟩
      rw [List.append_nil]
      exact h
  | cons id rest ih =>
      unfold sweep
      cases hturn : (problem.workflow.job? id).filter pass.isDue with
      | some job =>
          obtain ⟨hjob, hdue⟩ := Option.filter_eq_some_iff.1 hturn
          obtain ⟨turn, next, middle, hplace, hnext, horder, hsettled⟩ :=
            h.place_ok harranged (Workflow.mem_of_job? hjob) hdue
          rw [harranged.id_eq hjob] at horder
          obtain ⟨more, last, left, final, hsweep, hlast, hswept, hrest⟩ := ih hnext
          refine ⟨turn :: more, last, left, final,
            run_bind_eq_ok.2 ⟨next, middle, hplace, hsweep⟩, ?_, hswept.place horder,
            fun hsettles => ?_⟩
          · rw [List.append_cons]
            exact hlast
          · rw [List.forall_mem_cons] at hsettles
            exact (hsettled hsettles.1).bind (hrest hsettles.2)
      | none =>
          obtain ⟨more, last, left, final, hsweep, hlast, hswept, hrest⟩ := ih h
          refine ⟨more, last, id :: left, final,
            run_bind_eq_ok.2 ⟨(last, left), final, hsweep, rfl⟩, hlast,
            hswept.leave harranged fun job hjob => ?_,
            fun hsettles => (hrest hsettles).bind fun _ => rfl⟩
          -- The job was not due when its turn came.
          rw [hjob] at hturn
          simpa using hturn

/-- The sweeps place all jobs that wait. -/
theorem sweeps_ok (h : Takes problem timelines generator turns pass following)
    (harranged : problem.workflow.Arranged) {waiting : List JobId}
    (hperm : (waiting ++ pass.commitOrder).Perm problem.workflow.jobIds) :
    ∃ last final, (sweeps problem waiting pass).run following = (.ok last, final) ∧
      last.commitOrder.Perm problem.workflow.jobIds := by
  induction hcount : waiting.length using Nat.strongRecOn
    generalizing waiting pass turns following with
  | ind count ih =>
      have hlength := hperm.length_eq
      simp only [Workflow.jobIds, commitOrder, List.length_append, List.length_map] at hlength
      unfold sweeps
      split
      · have hnone : waiting = [] := List.length_eq_zero_iff.1 (by omega)
        subst hnone
        exact ⟨pass, following, rfl, hperm⟩
      · obtain ⟨more, next, left, middle, hsweep, hnext, hswept, -⟩ := h.sweep_ok harranged waiting
        have hne : waiting ≠ [] := by
          rintro rfl
          simp only [List.length_nil] at hlength
          omega
        have hprogress := hswept.progress harranged hperm hne
        obtain ⟨last, final, hsweeps, hall⟩ :=
          ih left.length (by omega) hnext (hswept.perm.trans hperm) rfl
        refine ⟨last, final, run_bind_eq_ok.2 ⟨(next, left), middle, hsweep, ?_⟩, hall⟩
        dsimp only
        rw [dif_pos hprogress]
        exact hsweeps

/-- Sweeps that come to an end take further turns, whatever jobs wait. They settle where these turns
do. -/
theorem of_sweeps (h : Takes problem timelines generator turns pass following)
    (harranged : problem.workflow.Arranged) {waiting : List JobId} {last : Pass α}
    {final : Generator}
    (hrun : (sweeps problem waiting pass).run following = (.ok last, final)) :
    ∃ more, Takes problem timelines generator (turns ++ more) last final ∧
      ((∀ turn ∈ more, turn.Settles) → Settles (sweeps problem waiting pass) last) := by
  induction hcount : waiting.length using Nat.strongRecOn
    generalizing waiting pass turns following with
  | ind count ih =>
      unfold sweeps at hrun ⊢
      split at hrun
      · rename_i hdone
        cases hrun
        refine ⟨[], by rwa [List.append_nil], fun _ => ?_⟩
        rw [if_pos hdone]
        exact fun _ => rfl
      · rename_i hwaiting
        rw [if_neg hwaiting]
        obtain ⟨⟨next, left⟩, middle, hsweep, hrest⟩ := run_bind_eq_ok.1 hrun
        obtain ⟨more, next', left', middle', hsweep', hnext, -, hsettled⟩ :=
          h.sweep_ok harranged waiting
        obtain ⟨heq, rfl⟩ := run_eq_ok_unique hsweep hsweep'
        cases heq
        dsimp only at hrest
        split at hrest
        · rename_i hprogress
          obtain ⟨others, hothers, htail⟩ := ih left.length (by omega) hnext hrest rfl
          refine ⟨more ++ others, by rwa [← List.append_assoc], fun hsettles => ?_⟩
          rw [List.forall_mem_append] at hsettles
          refine (hsettled hsettles.1).bind ?_
          dsimp only
          rw [dif_pos hprogress]
          exact htail hsettles.2
        · cases hrest

end Takes

namespace Reached

/-- The order in which a pass has placed its jobs passes the check. -/
theorem verifyTopological_ok (h : Reached problem timelines pass)
    (harranged : problem.workflow.Arranged) :
    verifyTopological problem.workflow pass.commitOrder = .ok () :=
  (verifyTopological_eq_ok_iff harranged h.nodup h.mem_jobIds).2 (h.respects harranged)

end Reached

/-- A pass that has placed all jobs has a solution. -/
theorem solution_ok (hall : pass.commitOrder.Perm problem.workflow.jobIds) :
    ∃ solution, pass.solution problem.workflow = .ok solution := by
  have hplaced : ∀ id ∈ problem.workflow.jobIds, ∃ placement, pass.placement? id = some placement :=
    fun id hid => Option.isSome_iff_exists.1 (isPlaced_iff.2 (hall.mem_iff.2 hid))
  obtain ⟨placements, hplacements⟩ := exists_forall₂ hplaced
  exact ⟨_, by rw [Pass.solution, mapM_eq_some_iff.2 hplacements]⟩

/-- The solution of a pass has a placement for each job and takes the rest over from the pass. -/
theorem solution_eq_ok {workflow : Workflow α} {solution : Solution α}
    (h : pass.solution workflow = .ok solution) :
    ∃ placements, List.Forall₂ (fun id placement => pass.placement? id = some placement)
        workflow.jobIds placements ∧
      solution = ⟨placements, pass.commitOrder, pass.cost, pass.finishTime, pass.reliability,
        pass.timelines⟩ := by
  unfold Pass.solution at h
  split at h
  · cases h
  · rename_i placements hplacements
    exact ⟨placements, mapM_eq_some_iff.1 hplacements, (Except.ok.inj h).symm⟩

/-- A run succeeds just when its sweeps come to a pass whose order passes the check and which has a
solution. -/
theorem run_eq_ok_iff {order : List JobId} {solution : Solution α} {generator final : Generator} :
    (Pass.run problem timelines order).run generator = (.ok solution, final) ↔
      ∃ last, (sweeps problem order (start timelines)).run generator = (.ok last, final) ∧
        verifyTopological problem.workflow last.commitOrder = .ok () ∧
        last.solution problem.workflow = .ok solution := by
  constructor
  · intro h
    obtain ⟨last, middle, hsweeps, hrest⟩ := run_bind_eq_ok.1 h
    obtain ⟨⟨⟩, next, hverify, hsolution⟩ := run_bind_eq_ok.1 hrest
    rw [run_known] at hverify hsolution
    obtain ⟨hverified, rfl⟩ := Prod.mk.inj hverify
    obtain ⟨hsolved, rfl⟩ := Prod.mk.inj hsolution
    exact ⟨last, hsweeps, hverified, hsolved⟩
  · rintro ⟨last, hsweeps, hverified, hsolved⟩
    refine run_bind_eq_ok.2 ⟨last, final, hsweeps, run_bind_eq_ok.2 ⟨(), final, ?_, ?_⟩⟩
    · rw [run_known, hverified]
    · rw [run_known, hsolved]

/-- A run over any order of all jobs of an arranged workflow has a solution. -/
theorem run_ok (harranged : problem.workflow.Arranged) (timelines : Timelines α)
    {order : List JobId} (horder : order.Perm problem.workflow.jobIds) (generator : Generator) :
    ∃ solution following, (Pass.run problem timelines order).run generator =
      (.ok solution, following) := by
  have hstart : (order ++ (start timelines).commitOrder).Perm problem.workflow.jobIds := by
    simpa [start, commitOrder] using horder
  have htakes : Takes problem timelines generator [] (start timelines) generator := .start
  obtain ⟨last, following, hsweeps, hall⟩ := htakes.sweeps_ok harranged hstart
  obtain ⟨more, hlast, -⟩ := htakes.of_sweeps harranged hsweeps
  obtain ⟨solution, hsolution⟩ := solution_ok hall
  exact ⟨solution, following, run_eq_ok_iff.2 ⟨last, hsweeps,
    hlast.reached.verifyTopological_ok harranged, hsolution⟩⟩

/-- A run that succeeds, over whatever order, has taken one turn for each job. It settles where
these turns do. -/
theorem exists_takes_of_run (harranged : problem.workflow.Arranged) {order : List JobId}
    {solution : Solution α} {generator final : Generator}
    (hrun : (Pass.run problem timelines order).run generator = (.ok solution, final)) :
    ∃ turns last, Takes problem timelines generator turns last final ∧
      last.commitOrder.Perm problem.workflow.jobIds ∧
      last.solution problem.workflow = .ok solution ∧
      ((∀ turn ∈ turns, turn.Settles) → Settles (Pass.run problem timelines order) solution) := by
  obtain ⟨last, hsweeps, hverified, hsolution⟩ := run_eq_ok_iff.1 hrun
  obtain ⟨turns, htakes, hsettled⟩ := Takes.start.of_sweeps harranged hsweeps
  refine ⟨turns, last, htakes, ?_, hsolution, fun hsettles => (hsettled hsettles).bind
    ((settles_known hverified).bind (settles_known hsolution))⟩
  obtain ⟨placements, hplacements, -⟩ := solution_eq_ok hsolution
  refine (List.perm_ext_iff_of_nodup htakes.reached.nodup harranged.nodup_jobIds).2 fun id =>
    ⟨htakes.reached.mem_jobIds id, fun hid => ?_⟩
  obtain ⟨placement, -, hplacement⟩ := forall₂_exists_right hplacements hid
  exact isPlaced_iff.1 (Option.isSome_iff_exists.2 ⟨placement, hplacement⟩)

/-- A run that succeeds comes to a solution of its problem. -/
theorem solves_of_run (harranged : problem.workflow.Arranged) {order : List JobId}
    {solution : Solution α} {generator final : Generator}
    (hrun : (Pass.run problem timelines order).run generator = (.ok solution, final)) :
    Solves problem timelines solution := by
  obtain ⟨turns, last, htakes, hall, hsolution, -⟩ := exists_takes_of_run harranged hrun
  exact ⟨last, htakes.reached, hall, hsolution⟩

section Placements

variable {solution : Solution α}

omit [Scalar α] in
/-- Where no job is placed twice, a placement is the one of its job. -/
theorem placement?_job (hnodup : pass.commitOrder.Nodup) {placement : Placement α}
    (hplacement : placement ∈ pass.placed) : pass.placement? placement.job = some placement := by
  obtain ⟨before, after, hsplit⟩ := List.append_of_mem hplacement
  rw [commitOrder, hsplit, List.map_append, List.map_cons, List.nodup_append] at hnodup
  have hnone : before.find? (fun other => other.job = placement.job) = none := by
    rw [List.find?_eq_none]
    intro other hother
    simp only [decide_eq_true_eq]
    exact hnodup.2.2 _ (List.mem_map_of_mem hother) _ List.mem_cons_self
  rw [placement?, hsplit, List.find?_append, hnone]
  simp

omit [Scalar α] in
/-- Where no job is placed twice, the placements are those of the placed jobs. -/
theorem filterMap_placement? (hnodup : pass.commitOrder.Nodup) :
    pass.commitOrder.filterMap pass.placement? = pass.placed :=
  filterMap_eq_of_forall₂ (List.forall₂_map_left_iff.2
    (List.forall₂_same.2 fun _ hplacement => placement?_job hnodup hplacement))

/-- The placements of a solution are listed by job. -/
theorem Reached.placements_eq (h : Reached problem timelines pass)
    (harranged : problem.workflow.Arranged)
    (hsolution : pass.solution problem.workflow = .ok solution) :
    solution.placements.length = problem.workflow.jobs.length ∧
      ∀ id, solution.placements[id]? = pass.placement? id := by
  obtain ⟨placements, hplacements, rfl⟩ := solution_eq_ok hsolution
  rw [harranged.jobIds_eq] at hplacements
  have hlength : placements.length = problem.workflow.jobs.length := by
    simpa using hplacements.length_eq.symm
  refine ⟨hlength, fun id => ?_⟩
  by_cases hid : id < problem.workflow.jobs.length
  · have hget := hplacements.get (i := id) (by simpa using hid) (by rw [hlength]; exact hid)
    simp only [List.get_eq_getElem, List.getElem_range] at hget
    rw [hget]
    exact List.getElem?_eq_getElem (by rw [hlength]; exact hid)
  · have hnone : pass.placement? id = none := by
      rw [← Option.not_isSome_iff_eq_none]
      exact fun hplaced => hid (harranged.mem_jobIds.1 (h.mem_jobIds id (isPlaced_iff.1 hplaced)))
    rw [hnone]
    exact List.getElem?_eq_none (by rw [hlength]; exact Nat.le_of_not_lt hid)

omit [Scalar α] in
/-- Placements that are listed by job are those of the jobs by number. -/
theorem map_job_eq_range {placements : List (Placement α)}
    (h : ∀ id, placements[id]? = pass.placement? id) :
    placements.map Placement.job = List.range placements.length := by
  apply List.ext_getElem
  · simp
  · intro id hid _
    rw [List.length_map] at hid
    rw [List.getElem_map, List.getElem_range]
    exact (placement?_eq_some ((h id).symm.trans (List.getElem?_eq_getElem hid))).2

/-- The placements of a solution in the order in which they were made are those of its pass. -/
theorem Reached.placed_eq (h : Reached problem timelines pass)
    (harranged : problem.workflow.Arranged)
    (hsolution : pass.solution problem.workflow = .ok solution) :
    solution.placed = pass.placed := by
  have hplacements := (h.placements_eq harranged hsolution).2
  obtain ⟨placements, -, rfl⟩ := solution_eq_ok hsolution
  rw [← filterMap_placement? h.nodup, Solution.placed]
  exact List.filterMap_congr fun id _ => hplacements id

end Placements

namespace Solves

variable {solution : Solution α}

/-- A solution takes everything over from a pass, and lists the placements by job. -/
theorem exists_pass (h : Solves problem timelines solution) :
    ∃ (pass : Pass α) (placements : List (Placement α)), Reached problem timelines pass ∧
      List.Forall₂ (fun id placement => pass.placement? id = some placement)
        problem.workflow.jobIds placements ∧
      solution = ⟨placements, pass.commitOrder, pass.cost, pass.finishTime, pass.reliability,
        pass.timelines⟩ := by
  obtain ⟨pass, hreached, -, hsolution⟩ := h
  obtain ⟨placements, hplacements, rfl⟩ := solution_eq_ok hsolution
  exact ⟨pass, placements, hreached, hplacements, rfl⟩

/-- A solution comes from a pass that is reached, whose placements it lists by job. -/
theorem placements_eq (h : Solves problem timelines solution)
    (harranged : problem.workflow.Arranged) :
    ∃ pass : Pass α, Reached problem timelines pass ∧ solution.timelines = pass.timelines ∧
      solution.placements.length = problem.workflow.jobs.length ∧
      ∀ id, solution.placements[id]? = pass.placement? id := by
  obtain ⟨pass, hreached, -, hsolution⟩ := h
  obtain ⟨hlength, hplacements⟩ := hreached.placements_eq harranged hsolution
  obtain ⟨placements, -, rfl⟩ := solution_eq_ok hsolution
  exact ⟨pass, hreached, rfl, hlength, hplacements⟩

/-- A solution keeps a timeline for each node. -/
theorem length_timelines (h : Solves problem timelines solution) :
    solution.timelines.nodes.length = timelines.nodes.length := by
  obtain ⟨pass, placements, hreached, -, rfl⟩ := h.exists_pass
  exact hreached.length_timelines

/-- A solution leaves the windows that were there on their nodes and in their order. -/
theorem sublist_ofNode (h : Solves problem timelines solution) (node : NodeId) :
    (timelines.ofNode node).windows.Sublist (solution.timelines.ofNode node).windows := by
  obtain ⟨pass, placements, hreached, -, rfl⟩ := h.exists_pass
  exact hreached.sublist_ofNode node

/-- The jobs that have windows in a solution are those that had them before and those that it
places. -/
theorem jobs_perm (h : Solves problem timelines solution) (hcatalog : problem.catalog.Drafted)
    (hlength : timelines.nodes.length = problem.catalog.nodes.length) :
    (solution.timelines.windows.map Window.job).Perm (timelines.windows.map Window.job ++
      solution.commitOrder.map fun job => ⟨problem.workflow.id, job⟩) := by
  obtain ⟨pass, placements, hreached, -, rfl⟩ := h.exists_pass
  have hperm := (hreached.windows_perm hcatalog hlength).map Window.job
  rw [List.map_append, List.map_map] at hperm
  rw [commitOrder, List.map_map]
  exact hperm

end Solves

end Pass

end WattPlan
