import WattPlan.Pass

/-!
# Running draws and trials

What a computation that draws gives, whatever the generator is, and what a trial comes to when it is
run from a generator. `Draw.Yields` is closed under sequencing, so a statement about every result of
a search follows from statements about its parts. `Trial.run_bind_eq_ok` takes a successful trial
apart into the trials it was put together from. `Trial.Settles` holds of the trials that come to one
result from every generator and leave it as it was.
-/

namespace WattPlan

namespace Draw

/-- Every result of a draw has a property, whatever the generator is. -/
def Yields {β : Type} (draw : Draw β) (P : β → Prop) : Prop :=
  ∀ generator, P (draw.run generator).1

variable {β γ : Type} {P : β → Prop} {Q : γ → Prop}

/-- A draw after another one runs on what the first one gives, from the generator that it leaves. -/
theorem run_bind (draw : Draw β) (next : β → Draw γ) (generator : Generator) :
    (draw >>= next).run generator = (next (draw.run generator).1).run (draw.run generator).2 :=
  rfl

/-- A draw that takes no word yields its value. -/
theorem Yields.pure {b : β} (h : P b) : Yields (Pure.pure b : Draw β) P :=
  fun _ => h

/-- What yields results with one property, followed by what makes of each of them a result with
another one, yields the latter. -/
theorem Yields.bind {draw : Draw β} {next : β → Draw γ} (h : Yields draw P)
    (hnext : ∀ b, P b → Yields (next b) Q) : Yields (draw >>= next) Q := by
  intro generator
  rw [run_bind]
  exact hnext _ (h generator) _

/-- Every draw yields something. -/
theorem Yields.trivial {draw : Draw β} : Yields draw fun _ => True :=
  fun _ => True.intro

/-- A fold whose steps keep a property yields results with it. -/
theorem Yields.foldlM {step : β → γ → Draw β} {xs : List γ} {start : β} (hstart : P start)
    (hstep : ∀ b x, P b → Yields (step b x) P) : Yields (xs.foldlM step start) P := by
  induction xs generalizing start with
  | nil => exact Yields.pure hstart
  | cons x xs ih =>
      rw [List.foldlM_cons]
      exact (hstep start x hstart).bind fun b hb => ih hb

end Draw

namespace Generator

open Draw

variable {β : Type}

/-- A draw below a positive bound is below it. -/
theorem below_yields {bound : Nat} (h : 0 < bound) : Yields (below bound) (· < bound) := by
  have hpart : ∀ word : UInt32, word.toNat * bound / Nat.pow 2 32 < bound := fun word =>
    Nat.div_lt_of_lt_mul (Nat.mul_lt_mul_of_pos_right word.toNat_lt h)
  unfold below
  refine Yields.bind Yields.trivial fun v _ => ?_
  dsimp only
  split
  · refine Yields.bind Yields.trivial fun w _ => Yields.pure ?_
    split
    · rename_i hcarry
      -- The product with its carry is less than all words times the bound.
      have hnext : (v.toNat + 1) * bound ≤ Nat.pow 2 32 * bound :=
        Nat.mul_le_mul_right bound v.toNat_lt
      have hsplit := Nat.div_add_mod (v.toNat * bound) (Nat.pow 2 32)
      have hw := hpart w
      have hlt : Nat.pow 2 32 * (v.toNat * bound / Nat.pow 2 32 + 1) < Nat.pow 2 32 * bound := by
        rw [Nat.mul_add, Nat.mul_one]
        rw [Nat.add_mul, Nat.one_mul] at hnext
        omega
      exact Nat.lt_of_mul_lt_mul_left hlt
    · exact hpart v
  · exact Yields.pure (hpart v)

/-- A choice by chance is a member of the list. -/
theorem choose_yields {xs : List β} (nonempty : xs ≠ []) :
    Yields (choose xs nonempty) (· ∈ xs) := by
  unfold choose
  refine Yields.bind Yields.trivial fun place _ => Yields.pure ?_
  rw [List.getD_eq_getElem?_getD]
  cases hplace : xs[place]? with
  | none => simp
  | some x => simpa using List.mem_of_getElem? hplace

/-- A choice by chance from a list with members is one of them. -/
theorem choose?_yields {xs : List β} (nonempty : xs ≠ []) :
    Yields (choose? xs) fun chosen => ∃ x ∈ xs, chosen = some x := by
  unfold choose?
  rw [dif_neg nonempty]
  exact (choose_yields nonempty).bind fun x hx => Yields.pure ⟨x, hx, rfl⟩

/-- Exchanging two places permutes a list. -/
theorem swapAt_perm (xs : List β) (i j : Nat) : (swapAt xs i j).Perm xs := by
  unfold swapAt
  split
  · rename_i x y hx hy
    obtain ⟨hi, rfl⟩ := List.getElem?_eq_some_iff.1 hx
    obtain ⟨hj, rfl⟩ := List.getElem?_eq_some_iff.1 hy
    exact List.set_set_perm hi hj
  · exact List.Perm.refl xs

end Generator

namespace Trial

variable {α β γ : Type}

/-- A draw as a trial cannot fail. -/
theorem run_lift (draw : Draw β) (generator : Generator) :
    (ExceptT.lift draw : Trial α β).run generator =
      (.ok (draw.run generator).1, (draw.run generator).2) :=
  rfl

/-- A result that is known before as a trial. -/
theorem run_known (result : Except (PlanFault α) β) (generator : Generator) :
    (ExceptT.mk (pure result) : Trial α β).run generator = (result, generator) :=
  rfl

/-- A trial after another one runs from the generator that the first one leaves. -/
theorem run_bind (first : Trial α β) (next : β → Trial α γ) (generator : Generator) :
    (first >>= next).run generator =
      match first.run generator with
      | (.ok b, following) => (next b).run following
      | (.error fault, following) => (.error fault, following) := by
  show ExceptT.bindCont next ((first.run generator).1) (first.run generator).2 = _
  cases first.run generator with
  | mk result following => cases result <;> rfl

/-- A sequence of trials succeeds just when both of them do. -/
theorem run_bind_eq_ok {first : Trial α β} {next : β → Trial α γ} {generator last : Generator}
    {c : γ} :
    (first >>= next).run generator = (.ok c, last) ↔
      ∃ b following, first.run generator = (.ok b, following) ∧
        (next b).run following = (.ok c, last) := by
  rw [run_bind]
  constructor
  · intro h
    split at h
    · rename_i b following hfirst
      exact ⟨b, following, hfirst, h⟩
    · cases h
  · rintro ⟨b, following, hfirst, hnext⟩
    rw [hfirst]
    exact hnext

/-- A trial has one result from a generator. -/
theorem run_eq_ok_unique {trial : Trial α β} {generator last other : Generator} {b c : β}
    (h : trial.run generator = (.ok b, last)) (hother : trial.run generator = (.ok c, other)) :
    b = c ∧ last = other := by
  obtain ⟨hresult, hlast⟩ := Prod.mk.inj (h.symm.trans hother)
  exact ⟨Except.ok.inj hresult, hlast⟩

/-- A trial comes to one result from every generator, and leaves the generator as it was. -/
def Settles (trial : Trial α β) (b : β) : Prop :=
  ∀ generator, trial.run generator = (.ok b, generator)

/-- A trial that settles, followed by one that settles, settles. -/
theorem Settles.bind {first : Trial α β} {next : β → Trial α γ} {b : β} {c : γ}
    (h : Settles first b) (hnext : Settles (next b) c) : Settles (first >>= next) c :=
  fun generator => run_bind_eq_ok.2 ⟨b, generator, h generator, hnext generator⟩

/-- A result that is known before settles. -/
theorem settles_known {result : Except (PlanFault α) β} {b : β} (h : result = .ok b) :
    Settles (ExceptT.mk (pure result) : Trial α β) b :=
  fun generator => by rw [run_known, h]

end Trial

end WattPlan
