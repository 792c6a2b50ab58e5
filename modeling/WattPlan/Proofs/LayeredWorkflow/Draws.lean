import Mathlib.Data.List.Forall2
import WattPlan.LayeredWorkflow
import WattPlan.Proofs.Draws
import WattPlan.Proofs.LawfulDraws

/-!
# The layers of a random workflow

Whatever the generator is, the jobs of a random workflow come in layers: `Shape.Layered` says how
many there are, how wide each one is and how its jobs refer to those of the layer above. The lengths
and sizes keep to the bounds of the shape, which is what `Scalar.LawfulDraws` asks of the arithmetic.
-/

namespace WattPlan

namespace Generator

open Draw

/-- Two words make a number of 64 bits. -/
theorem doubleWord_yields : Yields doubleWord (· < Nat.pow 2 64) := by
  unfold doubleWord
  refine Yields.bind Yields.trivial fun low _ => Yields.bind Yields.trivial fun high _ =>
    Yields.pure ?_
  have hlow : low.toNat < Nat.pow 2 32 := low.toNat_lt
  have hhigh : high.toNat < Nat.pow 2 32 := high.toNat_lt
  have hsquare : Nat.pow 2 64 = Nat.pow 2 32 * Nat.pow 2 32 := by decide
  have hnext : Nat.pow 2 32 * (high.toNat + 1) ≤ Nat.pow 2 32 * Nat.pow 2 32 :=
    Nat.mul_le_mul_left _ hhigh
  rw [Nat.mul_add, Nat.mul_one] at hnext
  omega

variable {α : Type} [Scalar α] [Scalar.LawfulDraws α]

/-- A quantity that is drawn between two amounts is an amount between them. -/
theorem between_yields {low high : α} (hlow : Scalar.isAmount low = true)
    (hhigh : Scalar.isAmount high = true) (h : low < high) :
    Yields (between low high) fun x => Scalar.isAmount x = true ∧ low ≤ x ∧ x ≤ high := by
  unfold between
  refine Yields.bind doubleWord_yields fun bits hbits => Yields.pure ?_
  refine Scalar.LawfulDraws.share hlow hhigh h (Nat.div_lt_of_lt_mul ?_)
  exact hbits

end Generator

namespace LayeredWorkflow

open Draw Generator

variable {α : Type}

/-- The name of the job at a place of a layer. -/
def jobName (layer place : Nat) : String :=
  "L" ++ Decimal.natText layer ++ "_J" ++ Decimal.natText place

/-- A digit is no underscore. -/
theorem underscore_notMem_digitChars (n : Nat) : '_' ∉ Decimal.digitChars n := by
  intro h
  have hdigit := Nat.isDigit_of_mem_toDigits (by decide) (by decide) h
  exact absurd hdigit (by decide)

/-- Jobs at different places have different names. -/
theorem jobName_inj {layer place otherLayer otherPlace : Nat}
    (h : jobName layer place = jobName otherLayer otherPlace) :
    layer = otherLayer ∧ place = otherPlace := by
  have hdigits : ∀ {m n : Nat}, Decimal.digitChars m = Decimal.digitChars n → m = n := by
    intro m n hsame
    have hread := congrArg (Nat.ofDigitChars 10 · 0) hsame
    simpa [Decimal.digitChars, Nat.ofDigitChars_toDigits] using hread
  have hchars := congrArg String.toList h
  simp only [jobName, Decimal.natText, String.toList_append, String.toList_ofList,
    List.append_assoc] at hchars
  have hrest := List.append_cancel_left hchars
  have hmark : "_J".toList = ['_', 'J'] := rfl
  have hplain : ∀ n : Nat, '_' ∉ 'J' :: Decimal.digitChars n := fun n hmem => by
    rcases List.mem_cons.1 hmem with heq | hmem
    · exact absurd heq (by decide)
    · exact underscore_notMem_digitChars n hmem
  rw [hmark] at hrest
  obtain ⟨hlayer, -, hplace⟩ := (List.append_cons_inj_of_notMem
    (underscore_notMem_digitChars layer) (hplain place)).1 hrest
  exact ⟨hdigits hlayer, hdigits (List.cons.inj hplace).2⟩

namespace Shape

variable [Scalar α]

/-- A shape that is not refused, and whose bounds are finite. -/
structure Admitted (shape : Shape α) : Prop where
  accepted : shape.fault? = none
  minLength : Scalar.isFinite shape.minLength = true
  maxLength : Scalar.isFinite shape.maxLength = true
  maxData : Scalar.isFinite shape.maxData = true

/-- A length within the bounds of a shape. -/
def IsLength (shape : Shape α) (length : α) : Prop :=
  Scalar.isAmount length = true ∧ shape.minLength ≤ length ∧ length ≤ shape.maxLength

/-- A size within the bounds of a shape. Sizes are whole numbers, so their bound is rounded as they
are. -/
def IsSize (shape : Shape α) (size : α) : Prop :=
  Scalar.isAmount size = true ∧ 0 ≤ size ∧ size ≤ Scalar.round shape.maxData

/-- The lengths and the sizes in a file are within the bounds of a shape. -/
def Bounds (shape : Shape α) (file : WorkflowFile α) : Prop :=
  ∀ entry ∈ file.jobs, shape.IsLength entry.length ∧
    ∀ artifact ∈ entry.inputs ++ entry.outputs, shape.IsSize artifact.size

/-- The job at a place of a layer of a shape, below the jobs of the layer above. -/
structure IsJob (shape : Shape α) (layer place : Nat) (above : List (JobEntry α))
    (job : JobEntry α) : Prop where
  name : job.name = jobName layer place
  length : shape.IsLength job.length
  output : ∃ size, shape.IsSize size ∧ job.outputs = [⟨job.name ++ ".out", size, none⟩]
  inputs : ∃ parents staged, parents.Sublist above ∧ (above ≠ [] → parents ≠ []) ∧
    job.parents = parents.map JobEntry.name ∧
    job.inputs = parents.flatMap JobEntry.outputs ++ staged ∧
    (layer = 0 → ∃ size, shape.IsSize size ∧ staged = [⟨job.name ++ ".in", size, shape.inputNode⟩]) ∧
    (layer ≠ 0 → staged = [])

/-- The layers of a shape from a number on, below the given jobs. -/
structure Layered (shape : Shape α) (first : Nat) (above : List (JobEntry α))
    (layers : List (List (JobEntry α))) : Prop where
  width : ∀ jobs ∈ layers, 1 ≤ jobs.length ∧ jobs.length ≤ shape.width
  job : ∀ {i jobs place job}, layers[i]? = some jobs → jobs[place]? = some job →
    ∃ upper, (above :: layers)[i]? = some upper ∧ shape.IsJob (first + i) place upper job

/-- The workflow file of a shape with the given layers of jobs. -/
def fileOf (shape : Shape α) (layers : List (List (JobEntry α))) : WorkflowFile α where
  name := shape.name
  id := shape.id
  submittedAt := shape.submittedAt
  reliabilityGoal := none
  jobs := layers.flatten

variable {shape : Shape α}

namespace Admitted

/-- There is at least one layer, and each one is wide enough for a job. -/
theorem counts (h : shape.Admitted) : 0 < shape.layers ∧ 0 < shape.width := by
  have hnone := h.accepted
  unfold fault? at hnone
  split at hnone
  · cases hnone
  · omega

variable [Scalar.LawfulDraws α]

open Scalar.LawfulDraws

/-- The bounds of the lengths are amounts, the lower one first. -/
theorem lengths (h : shape.Admitted) : Scalar.isAmount shape.minLength = true ∧
    Scalar.isAmount shape.maxLength = true ∧ shape.minLength ≤ shape.maxLength := by
  have hnone := h.accepted
  unfold fault? at hnone
  split at hnone
  · cases hnone
  · split at hnone
    · cases hnone
    · rename_i hbounds
      obtain ⟨hpos, hle⟩ := not_not.1 hbounds
      have hmin := isAmount_of_le zero h.minLength (le_of_lt hpos)
      exact ⟨hmin, isAmount_of_le hmin h.maxLength hle, hle⟩

/-- The bound of the sizes is an amount. -/
theorem data (h : shape.Admitted) : Scalar.isAmount shape.maxData = true := by
  have hnone := h.accepted
  unfold fault? at hnone
  split at hnone
  · cases hnone
  · split at hnone
    · cases hnone
    · split at hnone
      · cases hnone
      · rename_i hdata
        exact isAmount_of_le zero h.maxData (not_not.1 hdata)

/-- Drawn lengths are within their bounds. -/
theorem drawLength_yields (h : shape.Admitted) : Yields shape.drawLength shape.IsLength := by
  obtain ⟨hmin, hmax, hle⟩ := h.lengths
  unfold drawLength
  split
  · rename_i hlt
    exact between_yields hmin hmax hlt
  · exact Yields.pure ⟨hmin, le_refl hmin, hle⟩

/-- Drawn sizes are within their bounds. -/
theorem drawSize_yields (h : shape.Admitted) : Yields shape.drawSize shape.IsSize := by
  have hmax := h.data
  have hround := round_le hmax hmax (le_refl hmax)
  have hzero : (0 : α) ≤ Scalar.round shape.maxData := by
    have hle := (round_le zero hmax (zero_le hmax)).2
    rwa [Scalar.LawfulDraws.round_zero] at hle
  unfold drawSize
  split
  · rename_i hlt
    refine Yields.bind (between_yields zero hmax hlt) fun size hsize => Yields.pure ?_
    obtain ⟨hamount, -, hle⟩ := hsize
    obtain ⟨hrounded, hbound⟩ := round_le hamount hmax hle
    exact ⟨hrounded, zero_le hrounded, hbound⟩
  · exact Yields.pure ⟨zero, le_refl zero, hzero⟩

end Admitted

/-- A draw that passes over members or keeps them gives a part of a list, with each member in it
that is never passed over. -/
theorem filterMapM_yields {β γ : Type} {keep : γ → Draw (Option β)} {item : γ → β}
    (h : ∀ x, Yields (keep x) fun kept => kept = none ∨ kept = some (item x)) (xs : List γ) :
    Yields (xs.filterMapM keep) fun chosen => chosen.Sublist (xs.map item) ∧
      ∀ x ∈ xs, Yields (keep x) (· = some (item x)) → item x ∈ chosen := by
  induction xs with
  | nil => exact Yields.pure ⟨List.Sublist.refl _, by simp⟩
  | cons x xs ih =>
      have hkeep : Yields (keep x) fun kept => (kept = none ∨ kept = some (item x)) ∧
          (Yields (keep x) (· = some (item x)) → kept = some (item x)) :=
        fun generator => ⟨h x generator, fun hsure => hsure generator⟩
      rw [List.filterMapM_cons]
      refine Yields.bind hkeep fun kept hkept => ?_
      obtain ⟨rfl | rfl, hsure⟩ := hkept
      · -- A member that is always kept was not passed over here.
        refine fun generator => ?_
        obtain ⟨hsub, hmem⟩ := ih generator
        refine ⟨hsub.cons _, fun other hother hall => ?_⟩
        rcases List.mem_cons.1 hother with rfl | hother
        · cases hsure hall
        · exact hmem other hother hall
      · refine Yields.bind ih fun chosen hchosen => Yields.pure ?_
        obtain ⟨hsub, hmem⟩ := hchosen
        refine ⟨hsub.cons_cons _, fun other hother hall => ?_⟩
        rcases List.mem_cons.1 hother with rfl | hother
        · exact List.mem_cons_self
        · exact List.mem_cons_of_mem _ (hmem other hother hall)

/-- The parents of a job are some jobs of the layer above, at least one if there are any. -/
theorem drawParents_yields (shape : Shape α) (above : List (JobEntry α)) :
    Yields (shape.drawParents above) fun parents =>
      parents.Sublist above ∧ (above ≠ [] → parents ≠ []) := by
  unfold drawParents
  split
  · rename_i hempty
    exact Yields.pure ⟨List.nil_sublist _, fun hne => absurd (List.isEmpty_iff.1 hempty) hne⟩
  · rename_i hsome
    have hpos : 0 < above.length := by
      simpa [List.length_pos_iff] using hsome
    refine Yields.bind (below_yields hpos) fun first hfirst => ?_
    have hkept : ∀ entry : JobEntry α × Nat, Yields (do
        let taken ← if entry.2 = first then pure true else chance shape.edgeProbability
        pure (if taken then some entry.1 else none) : Draw (Option (JobEntry α)))
        fun kept => kept = none ∨ kept = some entry.1 := by
      intro entry
      have hlast : ∀ taken : Bool, (if taken then some entry.1 else none) = none ∨
          (if taken then some entry.1 else none) = some entry.1 := by
        intro taken
        cases taken
        · exact .inl rfl
        · exact .inr rfl
      dsimp only
      split
      · exact Yields.pure (hlast true)
      · exact Yields.bind Yields.trivial fun taken _ => Yields.pure (hlast taken)
    intro generator
    obtain ⟨hsub, hmem⟩ := filterMapM_yields hkept above.zipIdx generator
    refine ⟨by simpa using hsub, fun _ => List.ne_nil_of_mem (hmem (above[first], first) ?_ ?_)⟩
    · simp [List.mk_mem_zipIdx_iff_getElem?]
    · intro generator
      simp only [if_true]
      rfl

/-- The job that is drawn for a place of a layer. -/
theorem Admitted.drawJob_yields (h : shape.Admitted) [Scalar.LawfulDraws α] (layer : Nat)
    (above : List (JobEntry α)) (place : Nat) :
    Yields (shape.drawJob layer above place) (shape.IsJob layer place above) := by
  unfold drawJob
  refine Yields.bind h.drawLength_yields fun length hlength => ?_
  refine Yields.bind (shape.drawParents_yields above) fun parents hparents => ?_
  refine Yields.bind (P := fun staged => (layer = 0 → ∃ size, shape.IsSize size ∧
      staged = [⟨jobName layer place ++ ".in", size, shape.inputNode⟩]) ∧
      (layer ≠ 0 → staged = [])) ?_ fun staged hstaged => ?_
  · unfold drawStaged
    split
    · rename_i hzero
      exact Yields.bind h.drawSize_yields fun size hsize => Yields.pure
        ⟨fun _ => ⟨size, hsize, rfl⟩, fun hne => absurd hzero hne⟩
    · rename_i hne
      exact Yields.pure ⟨fun hzero => absurd hzero hne, fun _ => rfl⟩
  · refine Yields.bind h.drawSize_yields fun size hsize => Yields.pure ?_
    exact {
      name := rfl
      length := hlength
      output := ⟨size, hsize, rfl⟩
      inputs := ⟨parents, staged, hparents.1, hparents.2, rfl, rfl, hstaged⟩ }

/-- Drawing for each member of a list what has a property with it. -/
theorem mapM_yields {β γ : Type} {item : β → Draw γ} {R : β → γ → Prop}
    (h : ∀ x, Yields (item x) (R x)) (xs : List β) : Yields (xs.mapM item) (List.Forall₂ R xs) := by
  induction xs with
  | nil => exact Yields.pure .nil
  | cons x xs ih =>
      rw [List.mapM_cons]
      exact Yields.bind (h x) fun y hy => Yields.bind ih fun ys hys => Yields.pure (.cons hy hys)

/-- The jobs of drawn layers come in as many layers as are asked for. -/
theorem Admitted.drawLayers_yields (h : shape.Admitted) [Scalar.LawfulDraws α] (count first : Nat)
    (above : List (JobEntry α)) :
    Yields (shape.drawLayers count first above) fun jobs => ∃ layers, jobs = layers.flatten ∧
      layers.length = count ∧ shape.Layered first above layers := by
  induction count generalizing first above with
  | zero => exact Yields.pure ⟨[], rfl, rfl, by simp, by simp⟩
  | succ count ih =>
      rw [drawLayers]
      refine Yields.bind (below_yields h.counts.2) fun more hmore => ?_
      refine Yields.bind (mapM_yields (h.drawJob_yields first above) _) fun jobs hjobs => ?_
      refine Yields.bind (ih (first + 1) jobs) fun rest hrest => Yields.pure ?_
      obtain ⟨layers, rfl, rfl, hlayered⟩ := hrest
      have hlength : jobs.length = more + 1 := by simpa using hjobs.length_eq.symm
      refine ⟨jobs :: layers, rfl, rfl, ?_, ?_⟩
      · rw [List.forall_mem_cons]
        exact ⟨by omega, hlayered.width⟩
      · intro i layer place job hi hjob
        cases i with
        | zero =>
            obtain rfl : jobs = layer := by simpa using hi
            obtain ⟨hplace, rfl⟩ := List.getElem?_eq_some_iff.1 hjob
            have hdrawn := (List.forall₂_iff_get.1 hjobs).2 place (by simpa [hlength] using hplace)
              hplace
            exact ⟨above, rfl, by simpa using hdrawn⟩
        | succ i =>
            obtain ⟨upper, hupper, hdrawn⟩ := hlayered.job (by simpa using hi) hjob
            exact ⟨upper, by simpa using hupper, by rwa [Nat.add_right_comm] at hdrawn⟩

/-- A random workflow is the file of layers of its shape. -/
theorem Admitted.draw_yields (h : shape.Admitted) [Scalar.LawfulDraws α] :
    Yields shape.draw fun file => ∃ layers, layers.length = shape.layers ∧
      shape.Layered 0 [] layers ∧ file = shape.fileOf layers := by
  unfold draw
  refine Yields.bind (h.drawLayers_yields _ _ _) fun jobs hjobs => Yields.pure ?_
  obtain ⟨layers, rfl, hlength, hlayered⟩ := hjobs
  exact ⟨layers, hlength, hlayered, rfl⟩

end Shape

end LayeredWorkflow

end WattPlan
