import WattPlan.CommandLine.Generation
import WattPlan.Numeral.Binary64
import WattPlan.Proofs.LayeredWorkflow.Shape
import WattPlan.Proofs.WorkflowFile.Trees

/-!
# Generated files

Every call that does not fail prints or writes the text of the file that it draws
(`run_exit_zero`). If the bounds of the call are finite then the file can be drawn
(`perform_of_file`), the text is read back as a file whose lengths and sizes are within the bounds,
and the file is accepted (`run_accepted`).
-/

namespace WattPlan.CommandLine

open LayeredWorkflow

namespace Generation

variable {σ : Type} {files : FileAccess (StateM σ)} {before after : σ} {ending : Ending}

section Calls

variable {α : Type} [Numeral α]

/-- What a call gives away: it prints a text, or writes it to the file that it names. -/
def Gives (files : FileAccess (StateM σ)) (generation : Generation α) (text : String) (before : σ)
    (ending : Ending) (after : σ) : Prop :=
  match generation.output with
  | none => ending.printed = text ∧ after = before
  | some path => (files.write path text).run before = (.ok (), after)

variable [Scalar α]

/-- A call that does not fail gives away the text of the file that it draws. -/
theorem perform_exit_zero {generation : Generation α}
    (h : (perform files generation).run before = (ending, after)) (hexit : ending.exit = 0) :
    ∃ file, generation.file = .ok file ∧
      Gives files generation file.text before ending after := by
  unfold perform at h
  split at h
  · cases h
    cases hexit
  · rename_i file hfile
    refine ⟨file, hfile, ?_⟩
    split at h
    · cases h
      cases hexit
    split at h
    · rename_i houtput
      cases h
      rw [Gives, houtput]
      exact ⟨rfl, rfl⟩
    · rename_i path houtput
      rw [Gives, houtput]
      rw [StateT.run_bind] at h
      cases hwrite : (files.write path file.text).run before with
      | mk result following =>
          rw [hwrite] at h
          cases result with
          | error fault =>
              -- Where the text cannot be written, the call fails.
              cases h
              cases hexit
          | ok done =>
              cases h
              exact hwrite

/-- A run that does not fail was asked for help, or gives away the text of the file that it draws. -/
theorem run_exit_zero {words : List String}
    (h : (run α files words).run before = (ending, after)) (hexit : ending.exit = 0) :
    CommandLine.read (rules α) words = .help ∨
      ∃ given, CommandLine.read (rules α) words = .options given ∧
        ∃ file, (ofGiven given : Generation α).file = .ok file ∧
          Gives files (ofGiven given : Generation α) file.text before ending after := by
  unfold run at h
  split at h
  · cases h
    cases hexit
  · rename_i hwords
    exact .inl hwords
  · rename_i given hwords
    exact .inr ⟨given, hwords, perform_exit_zero h hexit⟩

/-- A stated number has 64 bits. -/
theorem id_le {given : Given} : ∀ id ∈ (ofGiven given : Generation α).shape.id,
    id ≤ WorkflowFile.largestId := by
  intro id hid
  obtain ⟨value, -, hread⟩ := Option.bind_eq_some_iff.1 hid
  have hlt := of_decide_eq_true (Option.filter_eq_some_iff.1 hread).2
  exact Nat.le_sub_one_of_lt hlt

omit [Numeral α] in
/-- The drawn file of an admitted shape is that of layers of the shape. -/
theorem file_eq_ok [Scalar.LawfulDraws α] {generation : Generation α} {file : WorkflowFile α}
    (h : generation.shape.Admitted) (hfile : generation.file = .ok file) :
    ∃ layers, generation.shape.Layered 0 [] layers ∧ file = generation.shape.fileOf layers := by
  rw [Generation.file, h.accepted] at hfile
  cases hfile
  obtain ⟨layers, -, hlayers, hdrawn⟩ := h.draw_yields (Generator.ofSeed _)
  exact ⟨layers, hlayers, hdrawn⟩

end Calls

/-- A shape that is not refused is admitted if its upper bounds are finite. -/
theorem admitted_of_file {generation : Generation Float} {file : WorkflowFile Float}
    (hfile : generation.file = .ok file)
    (hlength : Scalar.isFinite generation.shape.maxLength = true)
    (hdata : Scalar.isFinite generation.shape.maxData = true) : generation.shape.Admitted := by
  have hnone : generation.shape.fault? = none := by
    rw [Generation.file] at hfile
    split at hfile
    · cases hfile
    · assumption
  refine ⟨hnone, ?_, hlength, hdata⟩
  rw [Shape.fault?] at hnone
  split at hnone
  · cases hnone
  · split at hnone
    · cases hnone
    · rename_i hbounds
      obtain ⟨hpos, hle⟩ := not_not.1 hbounds
      exact Binary64.isFinite_of_between hpos hle hlength

/-- An admitted shape can be drawn. -/
theorem isDrawable_of_admitted {shape : Shape Float} (h : shape.Admitted) :
    shape.isDrawable = true := by
  obtain ⟨hmin, hmax, -⟩ := h.lengths
  have hzero : Scalar.isAmount (0 : Float) = true := Scalar.LawfulDraws.zero
  have hlength : shape.minLength < shape.maxLength →
      Generator.hasWidth shape.minLength shape.maxLength = true :=
    Binary64.isFinite_sub hmin hmax
  have hdata : 0 < shape.maxData → Generator.hasWidth 0 shape.maxData = true :=
    Binary64.isFinite_sub hzero h.data
  rw [Shape.isDrawable, Bool.and_eq_true]
  constructor
  · by_cases hlt : shape.minLength < shape.maxLength <;> simp [hlt, hlength]
  · by_cases hlt : 0 < shape.maxData <;> simp [hlt, hdata]

/-- A call with finite bounds that is not refused and names no file prints what it draws. -/
theorem perform_of_file {m : Type → Type} [Monad m] (files : FileAccess m)
    {generation : Generation Float} {file : WorkflowFile Float}
    (hfile : generation.file = .ok file) (houtput : generation.output = none)
    (hlength : Scalar.isFinite generation.shape.maxLength = true)
    (hdata : Scalar.isFinite generation.shape.maxData = true) :
    perform files generation = pure ⟨0, file.text, []⟩ := by
  have hdrawable := isDrawable_of_admitted (admitted_of_file hfile hlength hdata)
  simp only [perform, hfile, houtput, hdrawable, Bool.not_true, Bool.false_eq_true, if_false]

/-- What a run with finite bounds gives away is a workflow file whose lengths and sizes are within
the bounds. It is read back from its text if the document keeps its tree, and it is accepted with
every catalog that has the node of the inputs. -/
theorem run_accepted {words : List String} {given : Given}
    (hwords : CommandLine.read (rules Float) words = .options given)
    (hrun : (run Float files words).run before = (ending, after)) (hexit : ending.exit = 0)
    (hlength : Scalar.isFinite (ofGiven given : Generation Float).shape.maxLength = true)
    (hdata : Scalar.isFinite (ofGiven given : Generation Float).shape.maxData = true) :
    ∃ file, (ofGiven given : Generation Float).file = .ok file ∧
      Gives files (ofGiven given : Generation Float) file.text before ending after ∧
      (ofGiven given : Generation Float).shape.Bounds file ∧
      (Yaml.Keeps file.toTree → WorkflowFile.ofText file.text = .ok file) ∧
      ∀ (catalog : Catalog Float) (defaultId : WorkflowId),
        (∀ name ∈ (ofGiven given : Generation Float).shape.inputNode,
          (catalog.nodeNamed? name).isSome) →
        ∃ workflow, file.toWorkflow defaultId catalog = .ok workflow := by
  rcases run_exit_zero hrun hexit with hhelp | ⟨_, hread, file, hfile, hgives⟩
  · cases hwords.symm.trans hhelp
  cases hwords.symm.trans hread
  obtain ⟨layers, hlayers, rfl⟩ := file_eq_ok (admitted_of_file hfile hlength hdata) hfile
  have hid : ∀ id ∈ (ofGiven given : Generation Float).shape.id, id ≤ WorkflowFile.largestId :=
    id_le
  exact ⟨_, hfile, hgives, hlayers.bounds, WorkflowFile.ofText_text hid,
    fun catalog defaultId hnode =>
      (hlayers.exists_holds hnode defaultId).imp fun _ hboth => hboth.1⟩

end Generation

/-!
## Calls for a single job

They print the file of a workflow with one job.
-/

namespace Single

def files : FileAccess (StateM Unit) where
  read _ := pure (.error .missing)
  write _ _ := pure (.ok ())

/-- The words of a call with a length and a bound of the sizes. -/
def words (length size : String) : List String :=
  ["--layers", "1", "--width", "1", "--min-length", length, "--max-length", length, "--max-data",
    size, "--seed", "2", "--input-node", "store"]

/-- What a call ends with. -/
def ending (words : List String) : Ending :=
  ((Generation.run Float files words).run ()).1

/-- What a call is given. -/
def given? (words : List String) : Option Given :=
  match CommandLine.read (Generation.rules Float) words with
  | .options given => some given
  | .help | .misuse => none

theorem read_of_given? {words : List String} {given : Given} (h : given? words = some given) :
    CommandLine.read (Generation.rules Float) words = .options given := by
  unfold given? at h
  split at h
  · cases h
    assumption
  · cases h
  · cases h

/-- The file that is read back from what a call prints. -/
def printed? (words : List String) : Option (WorkflowFile Float) :=
  match (WorkflowFile.ofText (ending words).printed : Except (LoadFault Float) _) with
  | .ok file => some file
  | .error _ => none

/-- Does a call with finite bounds print a file whose document keeps its tree, with inputs at a node
of the catalog? -/
def isRegular (generation : Generation Float) : Bool :=
  Scalar.isFinite generation.shape.maxLength && Scalar.isFinite generation.shape.maxData &&
    generation.output.isNone &&
    generation.shape.inputNode.all (fun name => (Narrow.catalog.nodeNamed? name).isSome) &&
    match generation.file with
    | .ok file => (Yaml.parse? (Yaml.render file.toTree)).any file.toTree.readsAs
    | .error _ => false

/-- A call with whole bounds prints a file that is accepted. -/
theorem printed_accepted : ∃ file workflow, (ending (words "3" "8")).exit = 0 ∧
    WorkflowFile.ofText (ending (words "3" "8")).printed = .ok file ∧
    file.toWorkflow 1 Narrow.catalog = .ok workflow := by
  have hsome : (given? (words "3" "8")).any
      (fun given => isRegular (Generation.ofGiven given)) = true := by decide +kernel
  obtain ⟨given, hgiven, hregular⟩ := (Option.any_eq_true _ _).1 hsome
  simp only [isRegular, Bool.and_eq_true] at hregular
  obtain ⟨⟨⟨⟨hlength, hdata⟩, houtput⟩, hnode⟩, hkeeps⟩ := hregular
  have hexit : (ending (words "3" "8")).exit = 0 := by decide +kernel
  have hrun : (Generation.run Float files (words "3" "8")).run () =
      (ending (words "3" "8"), ()) := Prod.ext rfl (Subsingleton.elim _ _)
  obtain ⟨file, hfile, hgives, -, hread, haccepted⟩ :=
    Generation.run_accepted (read_of_given? hgiven) hrun hexit hlength hdata
  rw [hfile] at hkeeps
  rw [Generation.Gives, Option.isNone_iff_eq_none.1 houtput] at hgives
  obtain ⟨workflow, hworkflow⟩ := haccepted Narrow.catalog 1 fun name hname => by
    rw [Option.mem_def.1 hname] at hnode
    exact hnode
  exact ⟨file, workflow, hexit, hgives.1 ▸ hread hkeeps, hworkflow⟩

/-- A call with a fractional bound of the sizes prints a file with a larger size, and one with an
infinite length prints a file that is not accepted. -/
theorem printed_unfit :
    ((ending (words "2" "0.6")).exit = 0 ∧
      ∃ file, printed? (words "2" "0.6") = some file ∧
        ∃ job ∈ file.jobs, ∃ input ∈ job.inputs, ¬ input.size ≤ 0.6) ∧
    (ending (words "inf" "8")).exit = 0 ∧
      ∃ file, printed? (words "inf" "8") = some file ∧
        ∀ workflow, file.toWorkflow 1 Narrow.catalog ≠ .ok workflow := by
  have hlarge : (printed? (words "2" "0.6")).any (fun file => file.jobs.any fun job =>
      job.inputs.any fun input => !decide (input.size ≤ 0.6)) = true := by decide +kernel
  have hrefused : (printed? (words "inf" "8")).any (fun file =>
      !(file.toWorkflow 1 Narrow.catalog).isOk) = true := by decide +kernel
  refine ⟨⟨by decide +kernel, ?_⟩, by decide +kernel, ?_⟩
  · obtain ⟨file, hfile, hjobs⟩ := (Option.any_eq_true _ _).1 hlarge
    obtain ⟨job, hjob, hinputs⟩ := List.any_eq_true.1 hjobs
    obtain ⟨input, hinput, hsize⟩ := List.any_eq_true.1 hinputs
    exact ⟨file, hfile, job, hjob, input, hinput, by simpa using hsize⟩
  · obtain ⟨file, hfile, hnot⟩ := (Option.any_eq_true _ _).1 hrefused
    refine ⟨file, hfile, fun workflow hworkflow => ?_⟩
    rw [hworkflow] at hnot
    cases hnot

end Single

end WattPlan.CommandLine
