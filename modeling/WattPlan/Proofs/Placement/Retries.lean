import WattPlan.Proofs.Pass.GlobalChoice
import WattPlan.Proofs.Placement.Integrals

/-!
# The bounded retry

A bounded retry counts its attempts from 0 again after each improvement, so nothing in the count
says that it ends. What does is the number of sites whose candidate would still be an improvement:
it falls with each one (`length_improvers_lt`). `Retries` is the loop with all its attempts and no
bound on their number; the bounded retry runs this loop to its end (`retryRounds_retries`). After
the last improvement a whole row of attempts has found nothing better, among them those at the
cheapest site and at a site that holds the data. `boundedRetry_retried` puts this together.
-/

namespace WattPlan

open Draw

variable {α : Type} [Scalar α]

/-- The least member of a nonempty list is one that no member comes before. -/
theorem leastBy?_cons {β : Type} (cmp : β → β → Ordering) [Std.TransCmp cmp] (first : β)
    (rest : List β) : ∃ least ∈ first :: rest, leastBy? cmp (first :: rest) = some least ∧
      ∀ x ∈ first :: rest, (cmp least x).isLE = true := by
  induction rest generalizing first with
  | nil => exact ⟨first, by simp, rfl, by simp [Std.ReflCmp.isLE_rfl]⟩
  | cons next rest ih =>
      by_cases hless : cmp next first = .lt
      · obtain ⟨least, hmem, hleast, hle⟩ := ih next
        refine ⟨least, List.mem_cons_of_mem _ hmem, ?_, fun x hx => ?_⟩
        · simpa [leastBy?, hless] using hleast
        · rcases List.mem_cons.1 hx with rfl | hx
          · have hbefore : (cmp next x).isLE = true := by rw [hless]; rfl
            exact Std.TransCmp.isLE_trans (hle next List.mem_cons_self) hbefore
          · exact hle x hx
      · obtain ⟨least, hmem, hleast, hle⟩ := ih first
        have hnext : (cmp first next).isLE = true :=
          Std.OrientedCmp.isGE_iff_isLE.1 (Ordering.isGE_iff_ne_lt.2 hless)
        refine ⟨least, ?_, ?_, fun x hx => ?_⟩
        · rcases List.mem_cons.1 hmem with rfl | hmem
          · exact List.mem_cons_self
          · exact List.mem_cons_of_mem _ (List.mem_cons_of_mem _ hmem)
        · simpa [leastBy?, hless] using hleast
        · rcases List.mem_cons.1 hx with rfl | hx
          · exact hle x List.mem_cons_self
          · rcases List.mem_cons.1 hx with rfl | hx
            · exact Std.TransCmp.isLE_trans (hle first List.mem_cons_self) hnext
            · exact hle x (List.mem_cons_of_mem _ hx)

namespace Request

/-- An attempt of a bounded retry: the site that was searched, and whether its candidate became the
best one. -/
structure Retry (α : Type) where
  site : Site α
  improves : Bool

/-- The attempts of a bounded retry, from a best candidate, the number of the next attempt and a
generator on, until a whole row of them brings no improvement: the candidate and the generator at
the end. Each of the attempts returns: one that goes on for ever is none. -/
inductive Retries (request : Request α) : Option (Candidate α) → Nat → Generator →
    List (Retry α) → Option (Candidate α) → Generator → Prop where
  | done (best : Option (Candidate α)) (attempt : Nat) (generator : Generator) :
      request.problem.maxSiteRetries ≤ attempt →
      Retries request best attempt generator [] best generator
  | improve (best : Option (Candidate α)) (attempt : Nat) (generator following last : Generator)
      (site : Site α) (candidate : Candidate α) (retries : List (Retry α))
      (result : Option (Candidate α)) :
      attempt < request.problem.maxSiteRetries →
      (request.sitesFor (retryStrategy attempt)).run generator = ([site], following) →
      request.Returns (retryStrategy attempt) site →
      request.searchSite site = some candidate →
      request.objective.isBetter candidate best = true →
      Retries request (some candidate) 0 following retries result last →
      Retries request best attempt generator (⟨site, true⟩ :: retries) result last
  | keep (best : Option (Candidate α)) (attempt : Nat) (generator following last : Generator)
      (site : Site α) (retries : List (Retry α)) (result : Option (Candidate α)) :
      attempt < request.problem.maxSiteRetries →
      (request.sitesFor (retryStrategy attempt)).run generator = ([site], following) →
      request.Returns (retryStrategy attempt) site →
      (∀ candidate ∈ request.searchSite site,
        request.objective.isBetter candidate best = false) →
      Retries request best (attempt + 1) following retries result last →
      Retries request best attempt generator (⟨site, false⟩ :: retries) result last

/-- The sites whose candidate is better than the best one. -/
def improvers (request : Request α) (best : Option (Candidate α)) : List (Site α) :=
  request.sites.filter fun site =>
    (request.searchSite site).any fun candidate => request.objective.isBetter candidate best

variable {request : Request α} {best result : Option (Candidate α)} {candidate : Candidate α}
  {site : Site α} {retries : List (Retry α)} {generator following last : Generator}
  {attempt left : Nat}

/-- The search of one site gives the candidate of the site. -/
theorem searchSites_singleton (site : Site α) :
    request.searchSites [site] = request.searchSite site :=
  request.objective.keepBetter_none_left _

/-- A drafted catalog has a site with nodes. -/
theorem sites_ne_nil (hcatalog : request.problem.catalog.Drafted) : request.sites ≠ [] := by
  obtain ⟨node, hnode⟩ := List.exists_mem_of_ne_nil _ request.problem.catalog.nonempty
  exact List.ne_nil_of_mem (hcatalog.site_mem_populatedSites hnode)

/-- Sites in the order of a price, and of their numbers where that is equal. -/
def byPrice (price : Site α → α) (a b : Site α) : Ordering :=
  (Scalar.totalOrder (price a) (price b)).then (compare a.id b.id)

/-- A site is the first one with nodes in the order of a price. -/
def IsCheapest (request : Request α) (price : Site α → α) (site : Site α) : Prop :=
  site ∈ request.sites ∧ ∀ other ∈ request.sites, (byPrice price site other).isLE = true

/-- A site is the only one with nodes that holds an input of the job. -/
def IsOnlyDataSite (request : Request α) (site : Site α) : Prop :=
  site ∈ request.sites ∧ ∀ other ∈ request.sites, other.id ∈ request.dataSites ↔ other = site

/-- A site by chance is one of those with nodes. -/
theorem sitesFor_random (hcatalog : request.problem.catalog.Drafted) :
    Yields (request.sitesFor .random) fun sites => ∃ site ∈ request.sites, sites = [site] := by
  refine (Generator.choose?_yields (sites_ne_nil hcatalog)).bind fun chosen hchosen => ?_
  obtain ⟨site, hsite, rfl⟩ := hchosen
  exact Yields.pure ⟨site, hsite, rfl⟩

/-- By the place of the data a site with nodes is searched, one that holds an input if there is
one. -/
theorem sitesFor_dataLocality (hcatalog : request.problem.catalog.Drafted) :
    Yields (request.sitesFor .dataLocality) fun sites => ∃ site ∈ request.sites, sites = [site] ∧
      ∀ other ∈ request.sites, other.id ∈ request.dataSites → site.id ∈ request.dataSites := by
  unfold sitesFor
  dsimp only
  split
  · -- No site holds an input, so all sites are drawn from.
    rename_i hnone
    refine (Generator.choose?_yields (sites_ne_nil hcatalog)).bind fun chosen hchosen => ?_
    obtain ⟨site, hsite, rfl⟩ := hchosen
    refine Yields.pure ⟨site, hsite, rfl, fun other hother hholds => ?_⟩
    rw [List.isEmpty_iff, List.filter_eq_nil_iff] at hnone
    exact absurd (List.contains_iff_mem.2 hholds) (hnone other hother)
  · rename_i hsome
    rw [Bool.not_eq_true, List.isEmpty_eq_false_iff] at hsome
    refine (Generator.choose?_yields hsome).bind fun chosen hchosen => ?_
    obtain ⟨site, hsite, rfl⟩ := hchosen
    obtain ⟨hsite, hholds⟩ := List.mem_filter.1 hsite
    exact Yields.pure ⟨site, hsite, rfl, fun _ _ _ => List.contains_iff_mem.1 hholds⟩

/-- Where the attempt finds a better candidate, the row of attempts ends with it. -/
theorem firstImprovement_of_better
    (hdraw : (request.sitesFor (retryStrategy attempt)).run generator = ([site], following))
    (hfound : request.searchSite site = some candidate)
    (hbetter : request.objective.isBetter candidate best = true) :
    (request.firstImprovement best (left + 1) attempt).run generator =
      (some candidate, following) := by
  rw [firstImprovement, run_bind, hdraw, searchSites_singleton, hfound]
  dsimp only
  rw [if_pos hbetter]
  rfl

/-- Where the attempt finds no better candidate, the row of attempts goes on. -/
theorem firstImprovement_of_not_better
    (hdraw : (request.sitesFor (retryStrategy attempt)).run generator = ([site], following))
    (hnot : ∀ candidate ∈ request.searchSite site,
      request.objective.isBetter candidate best = false) :
    (request.firstImprovement best (left + 1) attempt).run generator =
      (request.firstImprovement best left (attempt + 1)).run following := by
  rw [firstImprovement, run_bind, hdraw, searchSites_singleton]
  cases hfound : request.searchSite site with
  | none => rfl
  | some candidate =>
      dsimp only
      rw [if_neg (by simp [hnot candidate hfound])]

namespace Retries

/-- The attempts are determined by the generator. -/
theorem unique (h : request.Retries best attempt generator retries result last)
    {others : List (Retry α)} {other : Option (Candidate α)} {end' : Generator}
    (hother : request.Retries best attempt generator others other end') :
    others = retries ∧ other = result ∧ end' = last := by
  induction h generalizing others other end' with
  | done best attempt generator hend =>
      cases hother with
      | done => exact ⟨rfl, rfl, rfl⟩
      | improve => omega
      | keep => omega
  | improve best attempt generator following last site candidate retries result hlt hdraw
      hreturns hfound hbetter _ ih =>
      cases hother with
      | done => omega
      | improve _ _ _ following' _ site' candidate' retries' _ hlt' hdraw' _ hfound' hbetter' hrest =>
          rw [hdraw, Prod.mk.injEq, List.cons.injEq] at hdraw'
          obtain ⟨⟨rfl, -⟩, rfl⟩ := hdraw'
          rw [hfound, Option.some.injEq] at hfound'
          subst hfound'
          obtain ⟨rfl, rfl, rfl⟩ := ih hrest
          exact ⟨rfl, rfl, rfl⟩
      | keep _ _ _ following' _ site' retries' _ hlt' hdraw' _ hnot =>
          rw [hdraw, Prod.mk.injEq, List.cons.injEq] at hdraw'
          obtain ⟨⟨rfl, -⟩, rfl⟩ := hdraw'
          rw [hnot candidate hfound] at hbetter
          cases hbetter
  | keep best attempt generator following last site retries result hlt hdraw hreturns hnot _ ih =>
      cases hother with
      | done => omega
      | improve _ _ _ following' _ site' candidate' retries' _ hlt' hdraw' _ hfound' hbetter' =>
          rw [hdraw, Prod.mk.injEq, List.cons.injEq] at hdraw'
          obtain ⟨⟨rfl, -⟩, rfl⟩ := hdraw'
          rw [hnot candidate' hfound'] at hbetter'
          cases hbetter'
      | keep _ _ _ following' _ site' retries' _ hlt' hdraw' _ hnot' hrest =>
          rw [hdraw, Prod.mk.injEq, List.cons.injEq] at hdraw'
          obtain ⟨⟨rfl, -⟩, rfl⟩ := hdraw'
          obtain ⟨rfl, rfl, rfl⟩ := ih hrest
          exact ⟨rfl, rfl, rfl⟩

/-- Where no attempt finds a candidate, the best one stays. -/
theorem result_eq (h : request.Retries best attempt generator retries result last)
    (hnone : ∀ retry ∈ retries, request.searchSite retry.site = none) : result = best := by
  induction h with
  | done => rfl
  | improve best attempt generator following last site candidate retries result hlt hdraw _ hfound =>
      rw [hnone _ List.mem_cons_self] at hfound
      cases hfound
  | keep best attempt generator following last site retries result hlt hdraw hreturns hnot _ ih =>
      exact ih (List.forall_mem_cons.1 hnone).2

/-- There are no more attempts than rows of them, of which each improvement begins one. -/
theorem length_le (h : request.Retries best attempt generator retries result last)
    (hattempt : attempt ≤ request.problem.maxSiteRetries) :
    retries.length + attempt ≤
      request.problem.maxSiteRetries * ((retries.filter Retry.improves).length + 1) := by
  induction h with
  | done best attempt generator hend => simpa using hattempt
  | improve best attempt generator following last site candidate retries result hlt _ _ _ _ _ ih =>
      have hrest := ih (Nat.zero_le _)
      rw [List.filter_cons_of_pos rfl, List.length_cons, List.length_cons, Nat.mul_succ]
      omega
  | keep best attempt generator following last site retries result hlt _ _ _ _ ih =>
      have hrest := ih hlt
      rw [List.filter_cons_of_neg (by simp), List.length_cons]
      omega

end Retries

section TotalOrder

variable [Std.TransCmp (Scalar.totalOrder : α → α → Ordering)]

/-- A best candidate is at least as good as one that is not better. -/
theorem covers_of_not_better {objective : Objective} {best other : Option (Candidate α)}
    (h : ∀ candidate ∈ other, objective.isBetter candidate best = false) :
    objective.Covers best other := by
  have hkept := (objective.keepBetter_covers best other).2
  cases other with
  | none => exact hkept
  | some candidate =>
      rwa [Objective.keepBetter, if_neg (by simp [h candidate rfl])] at hkept

/-- Sites are ordered by a price in a total order. -/
instance transCmp_byPrice (price : Site α → α) : Std.TransCmp (byPrice price) :=
  transCmp_then_number (transCmp_quantity price) Site.id

/-- By price the cheapest site is searched. -/
theorem exists_cheapestBy_eq (hcatalog : request.problem.catalog.Drafted) (price : Site α → α) :
    ∃ site, request.cheapestBy price = [site] ∧ request.IsCheapest price site := by
  obtain ⟨first, rest, hsites⟩ := List.exists_cons_of_ne_nil (sites_ne_nil hcatalog)
  obtain ⟨least, hmem, hleast, hle⟩ := leastBy?_cons (byPrice price) first rest
  rw [← hsites] at hmem hleast hle
  exact ⟨least, congrArg Option.toList hleast, hmem, hle⟩

/-- There is one cheapest site. -/
theorem IsCheapest.unique {price : Site α → α} {other : Site α}
    (hsite : request.IsCheapest price site) (hother : request.IsCheapest price other)
    (hcatalog : request.problem.catalog.Drafted) : site = other := by
  have hequal : byPrice price site other = .eq :=
    Std.OrientedCmp.isLE_antisymm (hsite.2 other hother.1) (hother.2 site hsite.1)
  exact hcatalog.site_inj (List.mem_filter.1 hsite.1).1 (List.mem_filter.1 hother.1).1
    (Nat.compare_eq_eq.1 (Ordering.then_eq_eq.1 hequal).2)

/-- Every attempt is at one of the sites that have nodes. -/
theorem exists_draw (hcatalog : request.problem.catalog.Drafted) (attempt : Nat)
    (generator : Generator) : ∃ site ∈ request.sites, ∃ following,
      (request.sitesFor (retryStrategy attempt)).run generator = ([site], following) := by
  have hsingle : ∃ site ∈ request.sites,
      ((request.sitesFor (retryStrategy attempt)).run generator).1 = [site] := by
    unfold retryStrategy
    split
    · exact sitesFor_random hcatalog generator
    · obtain ⟨site, heq, hcheapest⟩ := exists_cheapestBy_eq hcatalog fun site : Site α =>
        site.tariff.averagePrice request.begin request.subDeadline
      exact ⟨site, hcheapest.1, heq⟩
    · obtain ⟨site, hsite, heq, -⟩ := sitesFor_dataLocality hcatalog generator
      exact ⟨site, hsite, heq⟩
  obtain ⟨site, hsite, heq⟩ := hsingle
  exact ⟨site, hsite, _, Prod.ext heq rfl⟩

/-- A row of attempts is part of the loop: without an improvement the loop ends with it, and with
one it goes on from the better candidate. -/
theorem firstImprovement_retries (hcatalog : request.problem.catalog.Drafted)
    (hpriced : request.Priced) (best : Option (Candidate α))
    (hrow : attempt + left = request.problem.maxSiteRetries) (generator : Generator) :
    ∃ found following,
      (request.firstImprovement best left attempt).run generator = (found, following) ∧
      (found = none → ∃ retries, request.Retries best attempt generator retries best following) ∧
      ∀ candidate ∈ found, request.objective.isBetter candidate best = true ∧
        (∃ site ∈ request.sites, request.searchSite site = some candidate) ∧
        ∀ retries result last,
          request.Retries (some candidate) 0 following retries result last →
            ∃ all, request.Retries best attempt generator all result last := by
  induction left generalizing attempt generator with
  | zero =>
      exact ⟨none, generator, rfl, fun _ => ⟨[], .done best attempt generator (by omega)⟩,
        by simp⟩
  | succ left ih =>
      obtain ⟨site, hsite, next, hdraw⟩ := exists_draw hcatalog attempt generator
      have hlt : attempt < request.problem.maxSiteRetries := by omega
      by_cases hbetter : ∃ candidate ∈ request.searchSite site,
          request.objective.isBetter candidate best = true
      · obtain ⟨candidate, hfound, hbetter⟩ := hbetter
        refine ⟨some candidate, next, firstImprovement_of_better hdraw hfound hbetter, by simp, ?_⟩
        intro same hsame
        obtain rfl := Option.mem_some.1 hsame
        exact ⟨hbetter, ⟨site, hsite, hfound⟩, fun retries result last hretries =>
          ⟨_, .improve best attempt generator next last site candidate retries result hlt hdraw
            (hpriced.returns _ site) hfound hbetter hretries⟩⟩
      · have hnot : ∀ candidate ∈ request.searchSite site,
            request.objective.isBetter candidate best = false := by simpa using hbetter
        have hkeep : ∀ retries result last,
            request.Retries best (attempt + 1) next retries result last →
              request.Retries best attempt generator (⟨site, false⟩ :: retries) result last :=
          fun retries result last =>
            .keep best attempt generator next last site retries result hlt hdraw
              (hpriced.returns _ site) hnot
        have hnext : attempt + 1 + left = request.problem.maxSiteRetries := by omega
        obtain ⟨found, following, hrun, hnone, hsome⟩ := ih hnext next
        refine ⟨found, following, (firstImprovement_of_not_better hdraw hnot).trans hrun,
          fun heq => ?_, fun candidate hcandidate => ?_⟩
        · obtain ⟨retries, hretries⟩ := hnone heq
          exact ⟨_, hkeep _ _ _ hretries⟩
        · obtain ⟨hbetter, hsource, hgo⟩ := hsome candidate hcandidate
          refine ⟨hbetter, hsource, fun retries result last hretries => ?_⟩
          obtain ⟨all, hall⟩ := hgo retries result last hretries
          exact ⟨_, hkeep _ _ _ hall⟩

/-- What is better than a better candidate is better. -/
theorem isBetter_trans {objective : Objective} {best : Option (Candidate α)}
    {better candidate : Candidate α} (hbetter : objective.isBetter better best = true)
    (h : objective.isBetter candidate (some better) = true) :
    objective.isBetter candidate best = true := by
  cases best with
  | none => rfl
  | some best =>
      simp only [Objective.isBetter, decide_eq_true_eq] at hbetter h ⊢
      exact Std.TransCmp.lt_trans h hbetter

/-- No candidate is better than itself. -/
theorem isBetter_self (objective : Objective) (candidate : Candidate α) :
    objective.isBetter candidate (some candidate) = false := by
  simp [Objective.isBetter, Std.ReflCmp.compare_self]

/-- After an improvement there are fewer sites left that would be one. -/
theorem length_improvers_lt (hsite : site ∈ request.sites)
    (hfound : request.searchSite site = some candidate)
    (hbetter : request.objective.isBetter candidate best = true) :
    (request.improvers (some candidate)).length < (request.improvers best).length := by
  have hsub : (request.improvers (some candidate)).Sublist (request.improvers best) := by
    refine List.monotone_filter_right _ fun other hother => ?_
    obtain ⟨found, hmem, hnext⟩ := (Option.any_eq_true _ _).1 hother
    exact (Option.any_eq_true _ _).2 ⟨found, hmem, isBetter_trans hbetter hnext⟩
  refine Nat.lt_of_le_of_ne hsub.length_le fun hlength => ?_
  -- If there were as many as before, the site of the candidate would still be among them.
  have hmem : site ∈ request.improvers best := List.mem_filter.2 ⟨hsite, by simp [hfound, hbetter]⟩
  rw [← hsub.eq_of_length hlength] at hmem
  simp [improvers, hfound, isBetter_self] at hmem

/-- The bounded retry has rows enough for the loop, which it runs to its end. -/
theorem retryRounds_retries (hcatalog : request.problem.catalog.Drafted)
    (hpriced : request.Priced) {rounds : Nat}
    (hrounds : (request.improvers best).length < rounds) (generator : Generator) :
    ∃ retries, request.Retries best 0 generator retries
      ((request.retryRounds rounds best).run generator).1
      ((request.retryRounds rounds best).run generator).2 := by
  induction rounds generalizing best generator with
  | zero => omega
  | succ rounds ih =>
      obtain ⟨found, following, hrun, hnone, hsome⟩ :=
        firstImprovement_retries hcatalog hpriced best (Nat.zero_add _) generator
      rw [retryRounds, run_bind, hrun]
      cases found with
      | none => exact hnone rfl
      | some candidate =>
          obtain ⟨hbetter, ⟨site, hsite, hfound⟩, hgo⟩ := hsome candidate rfl
          have hfewer := length_improvers_lt hsite hfound hbetter
          obtain ⟨retries, hretries⟩ := ih (Nat.lt_of_lt_of_le hfewer (Nat.le_of_lt_succ hrounds))
            following
          exact hgo retries _ _ hretries

namespace Retries

/-- Every attempt is at a site with nodes. -/
theorem site_mem (h : request.Retries best attempt generator retries result last)
    (hcatalog : request.problem.catalog.Drafted) :
    ∀ retry ∈ retries, retry.site ∈ request.sites := by
  have hsite : ∀ {attempt : Nat} {generator following : Generator} {site : Site α},
      (request.sitesFor (retryStrategy attempt)).run generator = ([site], following) →
        site ∈ request.sites := by
    intro attempt generator following site hdraw
    obtain ⟨drawn, hmem, next, hdrawn⟩ := exists_draw hcatalog attempt generator
    rw [hdraw, Prod.mk.injEq, List.cons.injEq] at hdrawn
    rwa [hdrawn.1.1]
  induction h with
  | done => simp
  | improve _ _ _ _ _ _ _ _ _ _ hdraw _ _ _ _ ih => exact List.forall_mem_cons.2 ⟨hsite hdraw, ih⟩
  | keep _ _ _ _ _ _ _ _ _ hdraw _ _ _ ih => exact List.forall_mem_cons.2 ⟨hsite hdraw, ih⟩

/-- The result is at least as good as the best candidate before. -/
theorem covers (h : request.Retries best attempt generator retries result last) :
    request.objective.Covers result best := by
  induction h with
  | done best => exact .refl _ best
  | improve best attempt generator following last site candidate retries result hlt hdraw
      hreturns hfound hbetter _ ih =>
      have hkept := request.objective.keepBetter_covers best (some candidate)
      rw [Objective.keepBetter, if_pos hbetter] at hkept
      exact ih.trans hkept.1
  | keep _ _ _ _ _ _ _ _ _ _ _ _ _ ih => exact ih

/-- The result is at least as good as every candidate that an attempt found. -/
theorem covers_of_mem (h : request.Retries best attempt generator retries result last) :
    ∀ retry ∈ retries, request.objective.Covers result (request.searchSite retry.site) := by
  induction h with
  | done => simp
  | improve best attempt generator following last site candidate retries result hlt hdraw
      hreturns hfound hbetter hrest ih =>
      refine List.forall_mem_cons.2 ⟨?_, ih⟩
      rw [hfound]
      exact hrest.covers
  | keep best attempt generator following last site retries result hlt hdraw hreturns hnot hrest ih =>
      exact List.forall_mem_cons.2 ⟨hrest.covers.trans (covers_of_not_better hnot), ih⟩

/-- After the last improvement there has been an attempt of each number, and the result is at least
as good as the candidate of its site. -/
theorem exists_attempt (h : request.Retries best attempt generator retries result last)
    {number : Nat} (hfrom : attempt ≤ number) (hto : number < request.problem.maxSiteRetries) :
    ∃ site generator following,
      (request.sitesFor (retryStrategy number)).run generator = ([site], following) ∧
        request.objective.Covers result (request.searchSite site) := by
  induction h with
  | done best attempt generator hend => omega
  | improve best attempt generator following last site candidate retries result hlt hdraw
      hreturns hfound hbetter hrest ih => exact ih (Nat.zero_le _)
  | keep best attempt generator following last site retries result hlt hdraw hreturns hnot hrest ih =>
      rcases Nat.eq_or_lt_of_le hfrom with rfl | hlater
      · exact ⟨site, generator, following, hdraw,
          hrest.covers.trans (covers_of_not_better hnot)⟩
      · exact ih hlater

/-- Every improvement is one on the best candidate before. -/
theorem isBetter_of_improves (h : request.Retries best attempt generator retries result last) :
    ∀ retry ∈ retries, retry.improves = true → ∃ candidate ∈ request.searchSite retry.site,
      request.objective.isBetter candidate best = true := by
  induction h with
  | done => simp
  | improve best attempt generator following last site candidate retries result hlt hdraw
      hreturns hfound hbetter hrest ih =>
      refine List.forall_mem_cons.2 ⟨fun _ => ⟨candidate, hfound, hbetter⟩, ?_⟩
      intro retry hretry himproves
      obtain ⟨later, hlater, hbest⟩ := ih retry hretry himproves
      exact ⟨later, hlater, isBetter_trans hbetter hbest⟩
  | keep best attempt generator following last site retries result hlt hdraw hreturns hnot hrest ih =>
      exact List.forall_mem_cons.2 ⟨fun himproves => absurd himproves Bool.false_ne_true, ih⟩

/-- No site brings two improvements. -/
theorem nodup_improves (h : request.Retries best attempt generator retries result last) :
    ((retries.filter Retry.improves).map Retry.site).Nodup := by
  induction h with
  | done => simp
  | improve best attempt generator following last site candidate retries result hlt hdraw
      hreturns hfound hbetter hrest ih =>
      rw [List.filter_cons_of_pos rfl, List.map_cons, List.nodup_cons]
      refine ⟨fun hagain => ?_, ih⟩
      obtain ⟨retry, hretry, hsite⟩ := List.mem_map.1 hagain
      obtain ⟨hretry, himproves⟩ := List.mem_filter.1 hretry
      obtain ⟨same, hsame, hless⟩ := hrest.isBetter_of_improves retry hretry himproves
      -- The site would improve on its own candidate.
      rw [hsite, hfound] at hsame
      obtain rfl := Option.mem_some.1 hsame
      rw [isBetter_self] at hless
      cases hless
  | keep best attempt generator following last site retries result hlt hdraw hreturns hnot hrest ih =>
      rw [List.filter_cons_of_neg (by simp)]
      exact ih

end Retries

/-- What a bounded retry comes to. Each site brings at most one improvement, so there is a bound on
the attempts; the result is at least as good as every candidate that was found, and there is none
just if none was found. With two attempts in a row it is at least as good as the candidate of the
cheapest site, with three as that of the only site that holds data. -/
structure Retried (request : Request α) (retries : List (Retry α))
    (result : Option (Candidate α)) : Prop where
  site : ∀ retry ∈ retries, retry.site ∈ request.sites
  once : ((retries.filter Retry.improves).map Retry.site).Nodup
  length_le : retries.length ≤ request.problem.maxSiteRetries * (request.sites.length + 1)
  best : ∀ retry ∈ retries, request.objective.Covers result (request.searchSite retry.site)
  eq_none_iff : result = none ↔ ∀ retry ∈ retries, request.searchSite retry.site = none
  cheapest : 2 ≤ request.problem.maxSiteRetries → ∀ site,
    request.IsCheapest (fun site => site.tariff.averagePrice request.begin request.subDeadline)
      site → request.objective.Covers result (request.searchSite site)
  local_data : 3 ≤ request.problem.maxSiteRetries → ∀ site, request.IsOnlyDataSite site →
    request.objective.Covers result (request.searchSite site)

/-- Where every integral of the search is found, the bounded retry is the loop of attempts, and this
ends from every generator. -/
theorem boundedRetry_retried (request : Request α) (hcatalog : request.problem.catalog.Drafted)
    (hpriced : request.Priced) (generator : Generator) : ∃ retries,
      (∀ others result last, request.Retries none 0 generator others result last ↔
        others = retries ∧ request.boundedRetry.run generator = (result, last)) ∧
      request.Retried retries (request.boundedRetry.run generator).1 := by
  have hrounds : (request.improvers none).length < request.sites.length + 1 :=
    Nat.lt_succ_of_le (List.length_filter_le _ _)
  obtain ⟨retries, hretries⟩ := retryRounds_retries hcatalog hpriced hrounds generator
  have hsites := hretries.site_mem hcatalog
  have honce := hretries.nodup_improves
  have hcovers := hretries.covers_of_mem
  refine ⟨retries, fun others result last => ⟨fun hother => ?_, ?_⟩, ?_⟩
  · obtain ⟨rfl, rfl, rfl⟩ := hretries.unique hother
    exact ⟨rfl, rfl⟩
  · rintro ⟨rfl, hrun⟩
    rwa [← boundedRetry, hrun] at hretries
  constructor
  case site => exact hsites
  case once => exact honce
  case length_le =>
    have hmost :
        ((retries.filter Retry.improves).map Retry.site).length ≤ request.sites.length := by
      refine (List.subperm_of_subset honce fun site hsite => ?_).length_le
      obtain ⟨retry, hretry, rfl⟩ := List.mem_map.1 hsite
      exact hsites retry (List.mem_filter.1 hretry).1
    rw [List.length_map] at hmost
    exact (hretries.length_le (Nat.zero_le _)).trans
      (Nat.mul_le_mul_left _ (Nat.succ_le_succ hmost))
  case best => exact hcovers
  case eq_none_iff =>
    constructor
    · intro hnone retry hretry
      have hcover := hcovers retry hretry
      rw [← boundedRetry, hnone] at hcover
      exact hcover.eq_none
    · exact hretries.result_eq
  case cheapest =>
    intro hrow site hsite
    obtain ⟨drawn, before, following, hdraw, hcover⟩ := hretries.exists_attempt (Nat.zero_le 1) hrow
    obtain ⟨cheapest, heq, hcheapest⟩ := exists_cheapestBy_eq hcatalog fun site : Site α =>
      site.tariff.averagePrice request.begin request.subDeadline
    have hsame : [cheapest] = [drawn] := heq.symm.trans (Prod.mk.inj hdraw).1
    rwa [hsite.unique hcheapest hcatalog, (List.cons.inj hsame).1]
  case local_data =>
    intro hrow site hsite
    obtain ⟨drawn, before, following, hdraw, hcover⟩ := hretries.exists_attempt (Nat.zero_le 2) hrow
    obtain ⟨found, hfound, heq, hholds⟩ := sitesFor_dataLocality hcatalog before
    have hsame : [found] = [drawn] := heq.symm.trans (congrArg Prod.fst hdraw)
    obtain rfl := (hsite.2 found hfound).1 (hholds site hsite.1 ((hsite.2 site hsite.1).2 rfl))
    rwa [(List.cons.inj hsame).1]

end TotalOrder

end Request

/-!
## Two sites to retry

The second job of the fork once more, with three attempts in a row. The south is cheaper by then,
and the north holds the data.
-/

namespace Fork

open Exact Request

def retrying : Request (Exact ℚ) where
  problem := { secondHour with profile := Variant.dews.profile, maxSiteRetries := 3 }
  timelines := .idle 2
  job := left
  arrivals := [⟨finite 3700, ⟨0, "even", north, ⟨finite 4, finite 300, finite 0⟩,
    [⟨finite 2, finite 120, finite 0⟩]⟩, finite 20⟩]
  begin := finite 3700
  subDeadline := finite 3850
  subGoal := finite 0

theorem retrying_retried : retrying.problem.catalog.Drafted ∧
    retrying.IsCheapest (fun site => site.tariff.averagePrice (finite 3700) (finite 3850)) south ∧
    retrying.IsOnlyDataSite north ∧
    ∃ retries candidate last,
      retrying.boundedRetry.run planner.generator = (some candidate, last) ∧
      retrying.Retries none 0 planner.generator retries (some candidate) last ∧
      retries.length ≤ 9 ∧ ∀ site ∈ [north, south],
        retrying.objective.Covers (some candidate) (retrying.searchSite site) := by
  have hsites : retrying.sites = [north, south] := rfl
  have hcheapest : retrying.IsCheapest
      (fun site => site.tariff.averagePrice (finite 3700) (finite 3850)) south := by
    refine ⟨by simp [hsites], ?_⟩
    rw [hsites, List.forall_mem_cons, List.forall_mem_singleton]
    decide +kernel
  have hlocal : retrying.IsOnlyDataSite north := by
    refine ⟨by simp [hsites], ?_⟩
    have hdata : retrying.dataSites = [0] := rfl
    rw [hsites, hdata, List.forall_mem_cons, List.forall_mem_singleton]
    simp [north, south]
  obtain ⟨retries, hruns, hretried⟩ :=
    retrying.boundedRetry_retried catalog_drafted retrying.priced planner.generator
  cases hrun : retrying.boundedRetry.run planner.generator with
  | mk found last =>
      rw [hrun] at hretried
      have hcovers : ∀ site ∈ [north, south],
          retrying.objective.Covers found (retrying.searchSite site) := by
        rw [List.forall_mem_cons, List.forall_mem_singleton]
        exact ⟨hretried.local_data (by decide) north hlocal,
          hretried.cheapest (by decide) south hcheapest⟩
      have hlength := hretried.length_le
      rw [hsites] at hlength
      have hloop := (hruns retries found last).2 ⟨rfl, hrun⟩
      have hnorth : (retrying.searchSite north).isSome = true := by decide +kernel
      obtain ⟨candidate, hcandidate⟩ := Option.isSome_iff_exists.1 hnorth
      obtain ⟨best, rfl, -⟩ := hcovers north List.mem_cons_self candidate hcandidate
      exact ⟨catalog_drafted, hcheapest, hlocal, retries, best, last, rfl, hloop, hlength, hcovers⟩

end Fork

namespace LongRun

/-- The bounded retry for the long job does not come to an end, as its first attempt does not
return. -/
theorem retry_never_ends : catalog.Drafted ∧ ∃ (metrics : Metrics Float) (request : Request Float),
    metrics.Fits workflow catalog ∧
    (Pass.start (planner .dews).timelines).request ((planner .dews).problemOf workflow metrics)
      job = .ok request ∧
    request.problem.maxSiteRetries = 3 ∧
    ∀ generator retries result last, ¬ request.Retries none 0 generator retries result last := by
  obtain ⟨metrics, -, hfits⟩ := Metrics.ofWorkflow_eq_ok workflow_drafted.arranged catalog
    .siteAggregated .mean
  obtain ⟨request, hrequest⟩ : ∃ request, (Pass.start (planner .dews).timelines).request
      ((planner .dews).problemOf workflow metrics) job = .ok request := ⟨_, rfl⟩
  have hproblem := (Pass.asks_of_request hrequest).1.problem_eq
  have hsites : request.sites = [site] := by
    rw [Request.sites, hproblem]
    rfl
  have hnode : node ∈ request.problem.catalog.nodesAt site.id := by
    rw [hproblem]
    exact List.mem_cons_self
  have hendless : ∀ ordering, ¬ request.Returns ordering site := by
    intro ordering hreturns
    have hsome := hreturns.2 node hnode _ _ (bills_first rfl hfits hrequest)
    rw [show node.site.tariff = tariff from rfl, priceSeconds?_eq_none] at hsome
    cases hsome
  have hrow : request.problem.maxSiteRetries = 3 := by
    rw [hproblem]
    rfl
  refine ⟨catalog_drafted, metrics, request, hfits, hrequest, hrow,
    fun generator retries result last h => ?_⟩
  have hmem := h.site_mem (hproblem ▸ catalog_drafted)
  rw [hsites] at hmem
  -- The first attempt is at the only site, and it does not return.
  cases h with
  | done _ _ _ hle =>
      rw [hrow] at hle
      cases hle
  | improve _ _ _ _ _ drawn _ _ _ _ _ hreturns =>
      obtain rfl : drawn = site := List.mem_singleton.1 (hmem _ List.mem_cons_self)
      exact hendless _ hreturns
  | keep _ _ _ _ _ drawn _ _ _ _ hreturns =>
      obtain rfl : drawn = site := List.mem_singleton.1 (hmem _ List.mem_cons_self)
      exact hendless _ hreturns

end LongRun

end WattPlan
