import WattPlan.Placement
import WattPlan.Proofs.Sorting

/-!
# The better of two candidates

An objective compares candidates in a total order, if any two quantities are compared in one
(`Objective.transCmp_compare`). Keeping the better one of the best candidate so far and the next
one, again and again, therefore comes to a candidate that is at least as good as each that was met:
`Objective.foldl_keepBetter_covers`. The best of the best ones of some groups is the best one of
all: `Objective.foldl_keepBetter_flatten`.
-/

namespace WattPlan

variable {α : Type} [Scalar α]

namespace Objective

section TotalOrder

variable [Std.TransCmp (Scalar.totalOrder : α → α → Ordering)]

/-- Candidates are compared in a total order. -/
instance transCmp_compare (objective : Objective) :
    Std.TransCmp (objective.compare : Candidate α → Candidate α → Ordering) := by
  have hcost := transCmp_quantity (Candidate.cost : Candidate α → α)
  have hfinish := transCmp_quantity (Candidate.finish : Candidate α → α)
  cases objective with
  | cost =>
      exact inferInstanceAs (Std.TransCmp (compareLex
        (fun a b : Candidate α => Scalar.totalOrder a.cost b.cost)
        fun a b => Scalar.totalOrder a.finish b.finish))
  | finishTime =>
      exact inferInstanceAs (Std.TransCmp (compareLex
        (fun a b : Candidate α => Scalar.totalOrder a.finish b.finish)
        fun a b => Scalar.totalOrder a.cost b.cost))

end TotalOrder

variable {objective : Objective} {kept best other : Option (Candidate α)}

/-- Without another candidate the best one is kept. -/
theorem keepBetter_none (objective : Objective) (best : Option (Candidate α)) :
    objective.keepBetter best none = best :=
  rfl

/-- Where there is no candidate so far, the other one is kept. -/
theorem keepBetter_none_left (objective : Objective) (other : Option (Candidate α)) :
    objective.keepBetter none other = other := by
  cases other <;> rfl

/-- Of two candidates the other one is kept just when it is better. -/
theorem keepBetter_some (objective : Objective) (best other : Candidate α) :
    objective.keepBetter (some best) (some other) =
      if objective.compare other best = .lt then some other else some best := by
  simp [keepBetter, isBetter]

/-- If there is a candidate in the second place, there is one in the first place that is at least as
good. -/
def Covers (objective : Objective) (kept met : Option (Candidate α)) : Prop :=
  ∀ old ∈ met, ∃ candidate ∈ kept, (objective.compare candidate old).isLE = true

/-- Where no candidate is kept, none was met. -/
theorem Covers.eq_none (h : objective.Covers none other) : other = none := by
  refine Option.eq_none_iff_forall_not_mem.2 fun candidate hcandidate => ?_
  obtain ⟨none, hnone, -⟩ := h candidate hcandidate
  cases hnone

/-- A candidate that is kept is at least as good as one that was met. -/
theorem Covers.isLE (h : objective.Covers kept other) {candidate met : Candidate α}
    (hcandidate : candidate ∈ kept) (hmet : met ∈ other) :
    (objective.compare candidate met).isLE = true := by
  obtain ⟨same, hsame, hle⟩ := h met hmet
  rwa [Option.mem_unique hcandidate hsame]

variable [Std.TransCmp (Scalar.totalOrder : α → α → Ordering)]

/-- A candidate is at least as good as itself. -/
theorem Covers.refl (objective : Objective) (best : Option (Candidate α)) :
    objective.Covers best best :=
  fun candidate hcandidate => ⟨candidate, hcandidate, Std.ReflCmp.isLE_rfl⟩

/-- What is at least as good as a candidate is so of all that this one is at least as good as. -/
theorem Covers.trans (h : objective.Covers kept best) (hother : objective.Covers best other) :
    objective.Covers kept other := by
  intro candidate hcandidate
  obtain ⟨between, hbetween, hle⟩ := hother candidate hcandidate
  obtain ⟨first, hfirst, hle'⟩ := h between hbetween
  exact ⟨first, hfirst, Std.TransCmp.isLE_trans hle' hle⟩

/-- A candidate that no other one beats is at least as good as it. -/
theorem isLE_of_not_lt {candidate other : Candidate α}
    (h : ¬ objective.compare other candidate = .lt) :
    (objective.compare candidate other).isLE = true := by
  have hswap : objective.compare candidate other = (objective.compare other candidate).swap :=
    Std.OrientedCmp.eq_swap
  rw [hswap]
  revert h
  cases objective.compare other candidate <;> simp

/-- What is kept is at least as good as the best candidate so far and as the other one. -/
theorem keepBetter_covers (objective : Objective) (best other : Option (Candidate α)) :
    objective.Covers (objective.keepBetter best other) best ∧
      objective.Covers (objective.keepBetter best other) other := by
  cases other with
  | none => exact ⟨Covers.refl objective best, by simp [Covers]⟩
  | some new =>
      unfold keepBetter
      dsimp only
      split
      · rename_i hbetter
        refine ⟨fun old hold => ⟨new, rfl, ?_⟩, Covers.refl objective _⟩
        obtain rfl := Option.mem_def.1 hold
        have hlt : objective.compare new old = .lt := of_decide_eq_true hbetter
        rw [hlt]
        rfl
      · rename_i hnot
        refine ⟨Covers.refl objective best, fun candidate hcandidate => ?_⟩
        obtain rfl := Option.some.inj hcandidate
        cases best with
        | none => exact absurd rfl hnot
        | some old =>
            have hge : ¬ objective.compare new old = .lt := fun hlt => hnot (decide_eq_true hlt)
            exact ⟨old, rfl, isLE_of_not_lt hge⟩

/-- What is kept in the end is at least as good as each candidate that was met. -/
theorem foldl_keepBetter_covers (objective : Objective) (best : Option (Candidate α))
    (others : List (Option (Candidate α))) :
    objective.Covers (others.foldl objective.keepBetter best) best ∧
      ∀ other ∈ others, objective.Covers (others.foldl objective.keepBetter best) other := by
  induction others generalizing best with
  | nil => exact ⟨Covers.refl objective best, by simp⟩
  | cons first rest ih =>
      obtain ⟨hkept, hrest⟩ := ih (objective.keepBetter best first)
      obtain ⟨hbest, hfirst⟩ := objective.keepBetter_covers best first
      rw [List.forall_mem_cons]
      exact ⟨hkept.trans hbest, hkept.trans hfirst, hrest⟩

/-- It does not matter which two of three candidates are compared first. -/
theorem keepBetter_assoc (objective : Objective) (first second third : Option (Candidate α)) :
    objective.keepBetter (objective.keepBetter first second) third =
      objective.keepBetter first (objective.keepBetter second third) := by
  cases third with
  | none => rfl
  | some third =>
      cases second with
      | none => rw [keepBetter_none, keepBetter_none_left]
      | some second =>
          cases first with
          | none => rw [keepBetter_none_left, keepBetter_none_left]
          | some first =>
              by_cases hsecond : objective.compare second first = .lt
              · by_cases hthird : objective.compare third second = .lt
                · have hlt := Std.TransCmp.lt_trans hthird hsecond
                  simp only [keepBetter_some, hsecond, hthird, hlt, if_true]
                · simp only [keepBetter_some, hsecond, hthird, if_true, if_false]
              · by_cases hthird : objective.compare third second = .lt
                · simp only [keepBetter_some, hsecond, hthird, if_true, if_false]
                · -- The third one cannot be better than the first one, since the second one is not.
                  have hnot : ¬ objective.compare third first = .lt := fun hlt =>
                    hthird (Std.TransCmp.lt_of_lt_of_isLE hlt (isLE_of_not_lt hsecond))
                  simp only [keepBetter_some, hsecond, hthird, hnot, if_false]

/-- Keeping the better candidate again and again from one on compares it with the best of the others
in the end. -/
theorem foldl_keepBetter_eq (objective : Objective) (best : Option (Candidate α))
    (others : List (Option (Candidate α))) :
    others.foldl objective.keepBetter best =
      objective.keepBetter best (others.foldl objective.keepBetter none) := by
  induction others generalizing best with
  | nil => rfl
  | cons first rest ih =>
      rw [List.foldl_cons, List.foldl_cons, ih, ih (objective.keepBetter none first),
        keepBetter_assoc, keepBetter_none_left]

/-- The best of the best candidates of some groups is the best one of all, whatever the groups
are. -/
theorem foldl_keepBetter_flatten (objective : Objective)
    (groups : List (List (Option (Candidate α)))) (best : Option (Candidate α)) :
    (groups.map fun group => group.foldl objective.keepBetter none).foldl
      objective.keepBetter best = groups.flatten.foldl objective.keepBetter best := by
  induction groups generalizing best with
  | nil => rfl
  | cons group rest ih =>
      rw [List.map_cons, List.foldl_cons, List.flatten_cons, List.foldl_append, ih,
        ← foldl_keepBetter_eq]

end Objective

end WattPlan
