import WattPlan.Proofs.Draws

/-!
# The candidates that a search can come to

What holds of the candidates of the nodes holds of the candidate that the sites give, whatever the
variant is and whatever is drawn: `feasibleCandidate_yields`. A request offers the candidates that
its nodes have at their power levels, each evaluated at the time when all inputs are on the node.
The search comes to one of them (`search_yields_offers`), and to the candidate of the sites where
they give one (`search_run_of_found`).
-/

namespace WattPlan

open Draw

variable {α : Type} [Scalar α]

/-- The better of two candidates with a property has it. -/
theorem Objective.keepBetter_mem {objective : Objective} {best other : Option (Candidate α)}
    {P : Candidate α → Prop} (hbest : ∀ candidate ∈ best, P candidate)
    (hother : ∀ candidate ∈ other, P candidate) :
    ∀ candidate ∈ objective.keepBetter best other, P candidate := by
  unfold Objective.keepBetter
  split
  · split
    · exact hother
    · exact hbest
  · exact hbest

/-- The best of candidates with a property has it. -/
theorem Objective.foldl_keepBetter_mem {objective : Objective} {P : Candidate α → Prop}
    {others : List (Option (Candidate α))} {best : Option (Candidate α)}
    (hbest : ∀ candidate ∈ best, P candidate)
    (hothers : ∀ other ∈ others, ∀ candidate ∈ other, P candidate) :
    ∀ candidate ∈ others.foldl objective.keepBetter best, P candidate := by
  induction others generalizing best with
  | nil => exact hbest
  | cons first rest ih =>
      rw [List.forall_mem_cons] at hothers
      exact ih (objective.keepBetter_mem hbest hothers.1) hothers.2

namespace Request

variable {request : Request α}

/-- A node of the catalog has the candidate at one of its levels when all inputs are there. -/
def Offers (request : Request α) (candidate : Candidate α) : Prop :=
  ∃ node ∈ request.problem.catalog.nodes, ∃ choice ∈ node.levels.zipIdx,
    candidate = request.evaluate node (request.readyTime node) choice

/-- The levels of a node with their places: the fastest one first, the slower ones from 1 on. -/
theorem levels_zipIdx {α : Type} (node : Node α) :
    node.levels.zipIdx = (node.fastest, 0) :: node.slower.zipIdx 1 :=
  rfl

/-- The candidate of the fastest level of a node is offered. -/
theorem evaluateFastest_offered {node : Node α} (hnode : node ∈ request.problem.catalog.nodes) :
    request.Offers (request.evaluateFastest node) := by
  refine ⟨node, hnode, (node.fastest, 0), ?_, rfl⟩
  rw [levels_zipIdx]
  exact List.mem_cons_self

/-- Slowing down the candidate of the fastest level of a node gives an offered one. -/
theorem relax_offered {node : Node α} (hnode : node ∈ request.problem.catalog.nodes) :
    request.Offers (request.relax (request.readyTime node) (request.evaluateFastest node)) := by
  unfold relax
  split
  · exact evaluateFastest_offered hnode
  · rename_i choice hchoice
    have hslower : choice ∈ node.slower.zipIdx 1 :=
      (List.takeWhile_prefix _).subset (List.mem_of_getLast? hchoice)
    dsimp only
    split
    · refine ⟨node, hnode, choice, ?_, rfl⟩
      rw [levels_zipIdx]
      exact List.mem_cons_of_mem _ hslower
    · exact evaluateFastest_offered hnode

/-- The candidates of levels up to the first that misses a bound. -/
theorem feasibleChoices_eq (node : Node α) (ready : α) (choices : List (PowerLevel α × Nat)) :
    request.feasibleChoices node ready choices =
      (choices.map (request.evaluate node ready)).takeWhile fun candidate =>
        !decide (candidate.reliability < request.subGoal) &&
          !decide (request.subDeadline < candidate.finish) := by
  induction choices with
  | nil => rfl
  | cons choice rest ih =>
      rw [feasibleChoices, ih, List.map_cons, List.takeWhile_cons]
      by_cases hless : choice.1.reliability request.job.length < request.subGoal
      · simp [evaluate, hless]
      · by_cases hlate : request.subDeadline < (request.evaluate node ready choice).finish
        · simp [hless, hlate]
        · have hreliable : ¬ (request.evaluate node ready choice).reliability < request.subGoal :=
            hless
          simp [hless, hlate, hreliable]

/-- The candidate of a node is offered. -/
theorem tryNode_offered {node : Node α} (hnode : node ∈ request.problem.catalog.nodes) :
    ∀ candidate ∈ request.tryNode node, request.Offers candidate := by
  have hfastest : ∀ candidate ∈ (some (request.evaluateFastest node)).filter request.feasible,
      candidate = request.evaluateFastest node := by
    intro candidate hcandidate
    simpa using (Option.mem_filter_iff.1 hcandidate).1.symm
  unfold tryNode
  split
  case h_3 =>
    intro candidate hcandidate
    obtain ⟨fastest, hfast, rfl⟩ := Option.map_eq_some_iff.1 hcandidate
    rw [hfastest fastest hfast]
    exact relax_offered hnode
  case h_4 =>
    refine request.objective.foldl_keepBetter_mem (by simp) ?_
    intro other hother candidate hcandidate
    obtain ⟨level, hlevel, rfl⟩ := List.mem_map.1 hother
    obtain rfl := Option.mem_some.1 hcandidate
    rw [feasibleLevels, feasibleChoices_eq] at hlevel
    obtain ⟨choice, hchoice, rfl⟩ := List.mem_map.1 ((List.takeWhile_prefix _).subset hlevel)
    exact ⟨node, hnode, choice, hchoice, rfl⟩
  all_goals
    intro candidate hcandidate
    rw [hfastest candidate hcandidate]
    exact evaluateFastest_offered hnode

/-- The nodes that are searched at a site are nodes of the catalog. -/
theorem mem_nodes_of_nodesOf {site : Site α} {node : Node α} (h : node ∈ request.nodesOf site) :
    node ∈ request.problem.catalog.nodes := by
  have hlisted : node ∈ request.problem.catalog.nodesAt site.id := by
    unfold nodesOf at h
    split at h
    · exact h
    · exact (List.mergeSort_perm _ _).mem_iff.1 h
  exact (List.mem_filter.1 hlisted).1

section Sites

variable {P : Candidate α → Prop}

/-- The candidate of the first feasible node or of a later one with data is one of a node. -/
theorem firstThenLocal_of_tryNode {nodes : List (Node α)}
    (hnodes : ∀ node ∈ nodes, ∀ candidate ∈ request.tryNode node, P candidate) :
    ∀ candidate ∈ request.firstThenLocal nodes, P candidate := by
  induction nodes with
  | nil => simp [firstThenLocal]
  | cons node rest ih =>
      rw [List.forall_mem_cons] at hnodes
      have hfirst := hnodes.1
      unfold firstThenLocal
      split
      · exact ih hnodes.2
      · rename_i first htry
        rw [htry] at hfirst
        refine request.objective.foldl_keepBetter_mem hfirst ?_
        intro other hother
        obtain ⟨local', hlocal, rfl⟩ := List.mem_map.1 hother
        exact hnodes.2 local' (List.mem_filter.1 hlocal).1

/-- The candidate of a site is one of a node. -/
theorem searchSite_of_tryNode {site : Site α}
    (h : ∀ node ∈ request.problem.catalog.nodes, ∀ candidate ∈ request.tryNode node, P candidate) :
    ∀ candidate ∈ request.searchSite site, P candidate := by
  have hnodes : ∀ node ∈ request.nodesOf site, ∀ candidate ∈ request.tryNode node, P candidate :=
    fun node hnode => h node (mem_nodes_of_nodesOf hnode)
  unfold searchSite
  split
  case h_1 =>
    intro candidate hcandidate
    obtain ⟨node, hnode, htry⟩ := List.exists_of_findSome?_eq_some hcandidate
    exact hnodes node hnode candidate htry
  case h_2 => exact firstThenLocal_of_tryNode hnodes
  case h_3 =>
    refine request.objective.foldl_keepBetter_mem (by simp) ?_
    intro other hother
    obtain ⟨node, hnode, rfl⟩ := List.mem_map.1 hother
    exact hnodes node hnode

/-- The best of the candidates of some sites is one of a node. -/
theorem searchSites_of_tryNode {sites : List (Site α)}
    (h : ∀ node ∈ request.problem.catalog.nodes, ∀ candidate ∈ request.tryNode node, P candidate) :
    ∀ candidate ∈ request.searchSites sites, P candidate := by
  refine request.objective.foldl_keepBetter_mem (by simp) ?_
  intro other hother
  obtain ⟨site, -, rfl⟩ := List.mem_map.1 hother
  exact searchSite_of_tryNode h

/-- A row of attempts comes to a candidate of a node, if to any. -/
theorem firstImprovement_yields {best : Option (Candidate α)} (left attempt : Nat)
    (h : ∀ node ∈ request.problem.catalog.nodes, ∀ candidate ∈ request.tryNode node, P candidate) :
    Yields (request.firstImprovement best left attempt) fun found =>
      ∀ candidate ∈ found, P candidate := by
  induction left generalizing attempt with
  | zero => exact Yields.pure (by simp)
  | succ left ih =>
      refine Yields.bind Yields.trivial fun sites _ => ?_
      have hsites : ∀ candidate ∈ request.searchSites sites, P candidate :=
        searchSites_of_tryNode h
      split
      · rename_i candidate hfound
        rw [hfound] at hsites
        split
        · exact Yields.pure hsites
        · exact ih (attempt + 1)
      · exact ih (attempt + 1)

/-- Rows of attempts come to a candidate of a node or to the one they start with. -/
theorem retryRounds_yields (rounds : Nat) {best : Option (Candidate α)}
    (h : ∀ node ∈ request.problem.catalog.nodes, ∀ candidate ∈ request.tryNode node, P candidate)
    (hbest : ∀ candidate ∈ best, P candidate) :
    Yields (request.retryRounds rounds best) fun found => ∀ candidate ∈ found, P candidate := by
  induction rounds generalizing best with
  | zero => exact Yields.pure hbest
  | succ rounds ih =>
      refine Yields.bind (firstImprovement_yields _ _ h) fun found hfound => ?_
      cases found with
      | none => exact Yields.pure hbest
      | some candidate => exact ih hfound

/-- The feasible candidate that the sites give is one of a node. -/
theorem feasibleCandidate_yields
    (h : ∀ node ∈ request.problem.catalog.nodes, ∀ candidate ∈ request.tryNode node, P candidate) :
    Yields request.feasibleCandidate fun found => ∀ candidate ∈ found, P candidate := by
  unfold feasibleCandidate
  split
  · exact retryRounds_yields _ h (by simp)
  · exact Yields.bind Yields.trivial fun sites _ => Yields.pure (searchSites_of_tryNode h)

end Sites

omit [Scalar α] in
/-- A node by chance is a node of the catalog. -/
theorem randomNode_yields :
    Yields request.randomNode (· ∈ request.problem.catalog.nodes) :=
  Generator.choose_yields _

/-- Whatever is drawn, the search for a job comes to an offered candidate. -/
theorem search_yields_offers (request : Request α) : Yields request.search request.Offers := by
  unfold search
  split
  · refine Yields.bind randomNode_yields fun node hnode => ?_
    exact Yields.bind (Generator.choose_yields _) fun choice hchoice =>
      Yields.pure ⟨node, hnode, choice, hchoice, rfl⟩
  · refine Yields.bind (feasibleCandidate_yields fun node => tryNode_offered) fun found hfound => ?_
    cases found with
    | none =>
        exact Yields.bind randomNode_yields fun node hnode =>
          Yields.pure (evaluateFastest_offered hnode)
    | some candidate => exact Yields.pure (hfound candidate rfl)

/-- Where the sites give a candidate without a draw, so does the search, unless levels are chosen by
chance. -/
theorem search_eq_pure {candidate : Candidate α}
    (hlevel : request.problem.profile.levelSearch ≠ .random)
    (hfound : request.feasibleCandidate = pure (some candidate)) :
    request.search = pure candidate := by
  unfold search
  rw [hfound]
  split
  · rename_i hrandom
    exact absurd hrandom hlevel
  · rfl

/-- Where the sites give no candidate, the search falls back to the fastest level of a node by
chance, unless levels are chosen by chance. -/
theorem search_eq_fallback (hlevel : request.problem.profile.levelSearch ≠ .random)
    (hfound : request.feasibleCandidate = pure none) :
    request.search = request.randomNode >>= fun node => pure (request.evaluateFastest node) := by
  unfold search
  rw [hfound]
  split
  · rename_i hrandom
    exact absurd hrandom hlevel
  · rfl

/-- Where the sites give a candidate, the search comes to it, unless levels are chosen by chance. -/
theorem search_run_of_found {candidate : Candidate α} {generator : Generator}
    (hlevel : request.problem.profile.levelSearch ≠ .random)
    (hfound : (request.feasibleCandidate.run generator).1 = some candidate) :
    (request.search.run generator).1 = candidate := by
  unfold search
  split
  · rename_i hrandom
    exact absurd hrandom hlevel
  · rw [run_bind, hfound]
    rfl

end Request

end WattPlan
