import WattPlan.Edit

/-!
# Edits that leave no trace where they fail

An edit is atomic if a failure leaves the draft as it was. It is so when all that may fail comes
before all that changes the draft: `Reads.bind_atomic` puts a check before an atomic edit, and
`Sure.atomic` says that a change that cannot fail is one. Where all edits are atomic, making only
those that succeed comes to the same as making all (`perform_accepted`).
-/

namespace WattPlan

/-- The steps that were accepted, by the outcomes of all steps. -/
def accepted {σ ε β : Type} (steps : List σ) (outcomes : List (Except ε β)) : List σ :=
  ((steps.zip outcomes).filter fun pair => pair.2.isOk).map Prod.fst

section Accepted

variable {σ ε β : Type}

@[simp]
theorem accepted_cons_ok (step : σ) (steps : List σ) (b : β) (outcomes : List (Except ε β)) :
    accepted (step :: steps) (.ok b :: outcomes) = step :: accepted steps outcomes :=
  rfl

@[simp]
theorem accepted_cons_error (step : σ) (steps : List σ) (fault : ε)
    (outcomes : List (Except ε β)) :
    accepted (step :: steps) (.error fault :: outcomes) = accepted steps outcomes :=
  rfl

end Accepted

namespace Edit

variable {δ α β γ σ : Type}

@[simp]
theorem apply_get (draft : δ) : (get : Edit δ α δ).apply draft = (.ok draft, draft) :=
  rfl

/-- A check by itself leaves the draft as it is. -/
@[simp]
theorem apply_check (check : Except (ModelFault α) β) (draft : δ) :
    (liftM check : Edit δ α β).apply draft = (check, draft) :=
  rfl

/-- The second of two edits starts from the draft that the first one leaves, unless that fails. -/
theorem apply_bind (first : Edit δ α β) (next : β → Edit δ α γ) (draft : δ) :
    (first >>= next).apply draft =
      match first.apply draft with
      | (.ok b, after) => (next b).apply after
      | (.error fault, after) => (.error fault, after) := by
  show ((first >>= next).run.run draft).run = _
  rw [ExceptT.run_bind, StateT.run_bind, Id.run_bind]
  unfold apply
  rcases (first.run.run draft).run with ⟨outcome, after⟩
  cases outcome <;> rfl

/-- An edit that succeeds passes its result and the draft on. -/
theorem apply_bind_ok {first : Edit δ α β} {next : β → Edit δ α γ} {draft after : δ} {b : β}
    (h : first.apply draft = (.ok b, after)) :
    (first >>= next).apply draft = (next b).apply after := by
  rw [apply_bind, h]

/-- An edit that fails is the end. -/
theorem apply_bind_error {first : Edit δ α β} {next : β → Edit δ α γ} {draft after : δ}
    {fault : ModelFault α} (h : first.apply draft = (.error fault, after)) :
    (first >>= next).apply draft = (.error fault, after) := by
  rw [apply_bind, h]

/-- An edit that leaves every draft as it is. -/
def Reads (edit : Edit δ α β) : Prop :=
  ∀ draft, (edit.apply draft).2 = draft

/-- An edit that never fails. -/
def Sure (edit : Edit δ α β) : Prop :=
  ∀ draft, ∃ b, (edit.apply draft).1 = .ok b

/-- An edit that leaves a draft as it is where it fails. -/
def Atomic (edit : Edit δ α β) : Prop :=
  ∀ draft fault, (edit.apply draft).1 = .error fault → (edit.apply draft).2 = draft

theorem Reads.get : (get : Edit δ α δ).Reads :=
  fun _ => rfl

theorem Reads.check (check : Except (ModelFault α) β) : (liftM check : Edit δ α β).Reads :=
  fun _ => rfl

theorem Sure.pure (b : β) : (Pure.pure b : Edit δ α β).Sure :=
  fun _ => ⟨b, rfl⟩

theorem Sure.get : (MonadState.get : Edit δ α δ).Sure :=
  fun draft => ⟨draft, rfl⟩

theorem Sure.modify (f : δ → δ) : (modify f : Edit δ α PUnit).Sure :=
  fun _ => ⟨⟨⟩, rfl⟩

/-- Two edits in a row that never fail do not fail together. -/
theorem Sure.bind {first : Edit δ α β} {next : β → Edit δ α γ} (h : first.Sure)
    (hnext : ∀ b, (next b).Sure) : (first >>= next).Sure := by
  intro draft
  obtain ⟨b, hb⟩ := h draft
  obtain ⟨c, hc⟩ := hnext b (first.apply draft).2
  exact ⟨c, by rw [apply_bind_ok (Prod.ext hb rfl), hc]⟩

/-- An edit that never fails is atomic. -/
theorem Sure.atomic {edit : Edit δ α β} (h : edit.Sure) : edit.Atomic := by
  intro draft fault hfault
  obtain ⟨b, hb⟩ := h draft
  rw [hb] at hfault
  cases hfault

/-- An edit stays atomic behind one that changes nothing. -/
theorem Reads.bind_atomic {first : Edit δ α β} {next : β → Edit δ α γ} (h : first.Reads)
    (hnext : ∀ b, (next b).Atomic) : (first >>= next).Atomic := by
  intro draft fault hfault
  cases hfirst : (first.apply draft).1 with
  | error other => rw [apply_bind_error (Prod.ext hfirst (h draft))]
  | ok b =>
      rw [apply_bind_ok (Prod.ext hfirst (h draft))] at hfault ⊢
      exact hnext b draft fault hfault

/-- An edit stays atomic before one that never fails. -/
theorem Atomic.bind_sure {first : Edit δ α β} {next : β → Edit δ α γ} (h : first.Atomic)
    (hnext : ∀ b, (next b).Sure) : (first >>= next).Atomic := by
  intro draft fault hfault
  cases hfirst : (first.apply draft).1 with
  | error other =>
      rw [apply_bind_error (Prod.ext hfirst rfl)]
      exact h draft other hfirst
  | ok b =>
      obtain ⟨c, hc⟩ := hnext b (first.apply draft).2
      rw [apply_bind_ok (Prod.ext hfirst rfl), hc] at hfault
      cases hfault

/-- Without the steps that fail, atomic edits lead to the same draft, and all of them succeed as they
did. -/
theorem perform_accepted {edit : σ → Edit δ α β} (h : ∀ step, (edit step).Atomic) (draft : δ)
    (steps : List σ) :
    perform edit draft (accepted steps (perform edit draft steps).1) =
      ((perform edit draft steps).1.filter fun outcome => outcome.isOk,
        (perform edit draft steps).2) := by
  induction steps generalizing draft with
  | nil => rfl
  | cons step rest ih =>
      rw [perform]
      cases houtcome : ((edit step).apply draft).1 with
      | error fault =>
          have hsame := h step draft fault houtcome
          simp only [houtcome, hsame, accepted_cons_error, ih]
          rfl
      | ok b =>
          simp only [houtcome, accepted_cons_ok]
          rw [perform]
          simp only [houtcome, ih]
          rfl

end Edit

end WattPlan
