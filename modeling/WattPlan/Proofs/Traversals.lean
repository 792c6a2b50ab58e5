import Mathlib.Data.List.Forall2

/-!
# Traversals that can fail

What a traversal of a list comes to when each of its steps succeeds, for steps that may fail with a
fault and for steps that may give nothing. The results stand to the members one by one, which
`List.Forall₂` says.
-/

namespace WattPlan

variable {β γ ε : Type}

/-- A step that succeeds, followed by one that succeeds on its result, succeeds. -/
theorem bind_eq_ok {first : Except ε β} {next : β → Except ε γ} {b : β} {c : γ}
    (hfirst : first = .ok b) (hnext : next b = .ok c) : first >>= next = .ok c := by
  rw [hfirst]
  exact hnext

/-- Two steps in a row succeed only if both of them do. -/
theorem exists_of_bind_eq_ok {first : Except ε β} {next : β → Except ε γ} {c : γ}
    (h : first >>= next = .ok c) : ∃ b, first = .ok b ∧ next b = .ok c := by
  cases hfirst : first with
  | error fault =>
      rw [hfirst] at h
      cases h
  | ok b =>
      rw [hfirst] at h
      exact ⟨b, rfl, h⟩

/-- A step that succeeds with something, followed by one that succeeds on all of that, succeeds. -/
theorem exists_bind_eq_ok {first : Except ε β} {next : β → Except ε γ} {P : β → Prop}
    {Q : γ → Prop} (hfirst : ∃ b, first = .ok b ∧ P b)
    (hnext : ∀ b, P b → ∃ c, next b = .ok c ∧ Q c) :
    ∃ c, first >>= next = .ok c ∧ Q c := by
  obtain ⟨b, hb, hholds⟩ := hfirst
  obtain ⟨c, hc, hlast⟩ := hnext b hholds
  exact ⟨c, bind_eq_ok hb hc, hlast⟩

/-- A traversal succeeds just when its results are those of the members one by one. -/
theorem mapM_eq_ok_iff {f : β → Except ε γ} {xs : List β} {ys : List γ} :
    xs.mapM f = .ok ys ↔ List.Forall₂ (fun x y => f x = .ok y) xs ys := by
  induction xs generalizing ys with
  | nil => cases ys <;> simp [pure, Except.pure]
  | cons x xs ih =>
      rw [List.mapM_cons]
      cases hx : f x with
      | error fault => cases ys <;> simp [bind, Except.bind, hx]
      | ok y =>
          cases hxs : xs.mapM f with
          | error fault => cases ys <;> simp [bind, Except.bind, ← ih, hx, hxs]
          | ok rest => cases ys <;> simp [bind, Except.bind, pure, Except.pure, ← ih, hx, hxs]

/-- A traversal gives something just when its results are those of the members one by one. -/
theorem mapM_eq_some_iff {f : β → Option γ} {xs : List β} {ys : List γ} :
    xs.mapM f = some ys ↔ List.Forall₂ (fun x y => f x = some y) xs ys := by
  induction xs generalizing ys with
  | nil => cases ys <;> simp [pure]
  | cons x xs ih =>
      rw [List.mapM_cons]
      cases hx : f x with
      | none => cases ys <;> simp [hx]
      | some y =>
          cases hxs : xs.mapM f with
          | none => cases ys <;> simp [← ih, hx, hxs]
          | some rest => cases ys <;> simp [← ih, hx, hxs]

/-- Members that each stand to something stand to a list one by one. -/
theorem exists_forall₂ {R : β → γ → Prop} {xs : List β} (h : ∀ x ∈ xs, ∃ y, R x y) :
    ∃ ys, List.Forall₂ R xs ys := by
  induction xs with
  | nil => exact ⟨[], .nil⟩
  | cons x xs ih =>
      obtain ⟨y, hy⟩ := h x List.mem_cons_self
      obtain ⟨ys, hys⟩ := ih fun other hother => h other (List.mem_cons_of_mem x hother)
      exact ⟨y :: ys, .cons hy hys⟩

/-- A member of the first of two lists that stand to one another stands to a member of the second
one. -/
theorem forall₂_exists_right {R : β → γ → Prop} {xs : List β} {ys : List γ}
    (h : List.Forall₂ R xs ys) {x : β} (hx : x ∈ xs) : ∃ y ∈ ys, R x y := by
  induction h with
  | nil => cases hx
  | cons hfirst _ ih =>
      rcases List.mem_cons.1 hx with rfl | hx
      · exact ⟨_, List.mem_cons_self, hfirst⟩
      · obtain ⟨y, hy, hrel⟩ := ih hx
        exact ⟨y, List.mem_cons_of_mem _ hy, hrel⟩

/-- A member of the second of two lists that stand to one another has a member of the first one that
stands to it. -/
theorem forall₂_exists_left {R : β → γ → Prop} {xs : List β} {ys : List γ}
    (h : List.Forall₂ R xs ys) {y : γ} (hy : y ∈ ys) : ∃ x ∈ xs, R x y :=
  forall₂_exists_right (R := fun y x => R x y) (List.Forall₂.flip h) hy

/-- Elements that a partial function gives for all members of a list are all that it gives. -/
theorem filterMap_eq_of_forall₂ {f : β → Option γ} {xs : List β} {ys : List γ}
    (h : List.Forall₂ (fun x y => f x = some y) xs ys) : xs.filterMap f = ys := by
  induction h with
  | nil => rfl
  | cons hfirst _ ih => rw [List.filterMap_cons_some hfirst, ih]

/-- A check of all members passes just when it passes each of them. -/
theorem forM_eq_ok_iff {f : β → Except ε Unit} {xs : List β} :
    xs.forM f = .ok () ↔ ∀ x ∈ xs, f x = .ok () := by
  induction xs with
  | nil => simp [List.forM, pure, Except.pure]
  | cons x xs ih =>
      rw [List.forall_mem_cons, ← ih, List.forM]
      cases hx : f x <;> simp [bind, Except.bind]

/-- A check of all members that fails has come to a first member that it fails on. -/
theorem exists_of_forM_eq_error {f : β → Except ε Unit} {xs : List β} {fault : ε}
    (h : xs.forM f = .error fault) :
    ∃ before x after, xs = before ++ x :: after ∧ (∀ y ∈ before, f y = .ok ()) ∧
      f x = .error fault := by
  induction xs with
  | nil => cases h
  | cons x xs ih =>
      cases hx : f x with
      | error other =>
          have heq : other = fault := by simpa [List.forM, hx, bind, Except.bind] using h
          exact ⟨[], x, xs, rfl, fun y hy => absurd hy List.not_mem_nil, heq ▸ hx⟩
      | ok =>
          obtain ⟨before, y, after, rfl, hbefore, hy⟩ :=
            ih (by simpa [List.forM, hx, bind, Except.bind] using h)
          exact ⟨x :: before, y, after, rfl, List.forall_mem_cons.2 ⟨hx, hbefore⟩, hy⟩

/-- A traversal that carries a value succeeds if each of its steps does. -/
theorem foldlM_total {f : γ → β → Except ε γ} (xs : List β) (start : γ)
    (h : ∀ value, ∀ x ∈ xs, ∃ next, f value x = .ok next) :
    ∃ last, xs.foldlM f start = .ok last := by
  induction xs generalizing start with
  | nil => exact ⟨start, rfl⟩
  | cons x xs ih =>
      obtain ⟨next, hnext⟩ := h start x List.mem_cons_self
      obtain ⟨last, hlast⟩ := ih next fun value y hy => h value y (List.mem_cons_of_mem x hy)
      exact ⟨last, bind_eq_ok hnext hlast⟩

/-- What each step of a traversal shows of its member, as long as an invariant is kept, holds of all
members. -/
theorem foldlM_forall {I : γ → Prop} {P : β → Prop} {f : γ → β → Except ε γ} {xs : List β}
    {start last : γ} (hstart : I start)
    (hstep : ∀ value, ∀ x ∈ xs, ∀ next, I value → f value x = .ok next → I next ∧ P x)
    (h : xs.foldlM f start = .ok last) : I last ∧ ∀ x ∈ xs, P x := by
  induction xs generalizing start with
  | nil =>
      cases h
      exact ⟨hstart, by simp⟩
  | cons x xs ih =>
      rw [List.foldlM_cons] at h
      obtain ⟨next, hnext, hrest⟩ := exists_of_bind_eq_ok h
      obtain ⟨hkept, hx⟩ := hstep start x List.mem_cons_self next hstart hnext
      obtain ⟨hlast, hxs⟩ :=
        ih hkept (fun value y hy => hstep value y (List.mem_cons_of_mem x hy)) hrest
      exact ⟨hlast, List.forall_mem_cons.2 ⟨hx, hxs⟩⟩

/-- What holds at the start of a traversal and is kept by its steps holds of what it comes to. -/
theorem foldlM_preserves {I : γ → Prop} {f : γ → β → Except ε γ} {xs : List β} {start last : γ}
    (hstart : I start)
    (hstep : ∀ value, ∀ x ∈ xs, ∀ next, I value → f value x = .ok next → I next)
    (h : xs.foldlM f start = .ok last) : I last :=
  (foldlM_forall (P := fun _ => True) hstart
    (fun value x hx next hvalue hnext => ⟨hstep value x hx next hvalue hnext, trivial⟩) h).1

/-- A traversal of an order that fills one place for each number gives a value to all of them, if
each step finds the places filled that it needs. -/
theorem foldlM_fill (needs : Nat → List Nat)
    (step : List (Option γ) → Nat → Except ε (List (Option γ))) {order : List Nat} {size : Nat}
    (hbound : ∀ id ∈ order, id < size)
    (hneeds : ∀ before id after, order = before ++ id :: after → ∀ need ∈ needs id, need ∈ before)
    (hstep : ∀ values, ∀ id ∈ order, values.length = size →
      (∀ need ∈ needs id, ∃ value, values[need]? = some (some value)) →
        ∃ value, step values id = .ok (values.set id (some value))) :
    ∃ values, order.foldlM step (List.replicate size none) = .ok values ∧
      values.length = size ∧ ∀ id ∈ order, ∃ value, values[id]? = some (some value) := by
  -- The places of `before` are filled when the traversal comes to `after`.
  have hsuffix : ∀ after before values, order = before ++ after → values.length = size →
      (∀ id ∈ before, ∃ value, values[id]? = some (some value)) →
      ∃ last, after.foldlM step values = .ok last ∧ last.length = size ∧
        ∀ id ∈ order, ∃ value, last[id]? = some (some value) := by
    intro after
    induction after with
    | nil =>
        intro before values horder hsize hfilled
        refine ⟨values, rfl, hsize, ?_⟩
        simpa [horder] using hfilled
    | cons id after ih =>
        intro before values horder hsize hfilled
        have hid : id ∈ order := by simp [horder]
        obtain ⟨value, hvalue⟩ := hstep values id hid hsize fun need hneed =>
          hfilled need (hneeds before id after horder need hneed)
        obtain ⟨last, hlast, hrest⟩ := ih (before ++ [id]) (values.set id (some value))
          (by simp [horder]) (by simp [hsize]) (by
            intro other hother
            by_cases heq : id = other
            · subst heq
              have hlt : id < values.length := by rw [hsize]; exact hbound id hid
              exact ⟨value, by simp [hlt]⟩
            · rcases List.mem_append.1 hother with hother | hother
              · rw [List.getElem?_set_ne heq]
                exact hfilled other hother
              · exact absurd (List.mem_singleton.1 hother).symm heq)
        exact ⟨last, bind_eq_ok hvalue hlast, hrest⟩
  exact hsuffix order [] _ rfl (by simp) (by simp)

end WattPlan
