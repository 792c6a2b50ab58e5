import WattPlan.CommandLine.Files
import WattPlan.CommandLine.Options
import WattPlan.PlanningDocument
import WattPlan.Report
import WattPlan.WorkflowFile.Text

/-!
# The command that plans workflows

The command takes in a planning document and workflow files, plans the workflows as one batch, and
reports on each of them. It fails if one of the files is refused, or if a workflow gets no plan.
-/

namespace WattPlan.CommandLine

/-- A call of the command. -/
structure Planning (α : Type) where
  catalog : String
  workflows : List String
  planner : Option String
  seed : Option Nat
  slack : Option α
  order : SubmissionOrder

/-- The order that a word names. -/
def submissionKey? (word : String) : Option SubmissionKey :=
  match word with
  | "id" => some .id
  | "depth" => some .depth
  | "jobs" => some .jobCount
  | "length" => some .length
  | _ => none

namespace Planning

section Options

variable {α : Type} [Numeral α]

/-- The options of the command. -/
def rules (α : Type) [Numeral α] : List OptionRule :=
  [.path "catalog" 'c', { OptionRule.path "workflow" 'w' with repeatable := true },
    { OptionRule.text "planner" with letter := some 'p' }, .reading "seed" readCount?,
    .reading "slack" (Numeral.ofWord? (α := α)), .reading "order" submissionKey?,
    .flag "descending"]

/-- The call that options stand for. A catalog and at least one workflow are needed. -/
def ofGiven? (given : Given) : Option (Planning α) := do
  let catalog ← given.value? "catalog"
  let workflows := given.values "workflow"
  if workflows.isEmpty then none
  else
    some
      { catalog
        workflows
        planner := given.value? "planner"
        seed := given.read? "seed" readCount?
        slack := given.read? "slack" Numeral.ofWord?
        order := ⟨(given.read? "order" submissionKey?).getD .id, given.has "descending"⟩ }

end Options

variable {α : Type} [Scalar α] [Numeral α]

/-- The settings of a call: those of the document, but for what the call states. -/
def override (planning : Planning α) (settings : Settings α) :
    Except (LoadFault α) (Settings α) := do
  let variant ←
    match planning.planner with
    | none => .ok settings.variant
    | some name =>
        match Variant.ofName name with
        | .ok variant => .ok variant
        | .error fault => .error (.plan fault)
  .ok
    { settings with
      variant
      seed := planning.seed.getD settings.seed
      slackFactor := planning.slack.getD settings.slackFactor }

section Loading

variable {m : Type → Type} [Monad m] (files : FileAccess m)

/-- Takes in a file with a reader of its text. -/
def load {β : Type} (kind : DocumentKind) (path : String)
    (ofText : String → Except (LoadFault α) β) : m (Except (LoadFault α) β) := do
  match ← files.read path with
  | .ok text => pure (LoadFault.within (.reading kind path) (ofText text))
  | .error fault => pure (.error (.during (.opening kind path) (.file fault)))

/-- Takes in workflow files, the first of which has the given default number. -/
def loadWorkflows (catalog : Catalog α) :
    WorkflowId → List String → m (Except (LoadFault α) (List (Workflow α)))
  | _, [] => pure (.ok [])
  | id, path :: rest => do
      match ← load files .workflow path WorkflowFile.ofText with
      | .error fault => pure (.error fault)
      | .ok file =>
          match file.toWorkflow id catalog with
          | .error fault => pure (.error fault)
          | .ok workflow =>
              match ← loadWorkflows catalog (id + 1) rest with
              | .error fault => pure (.error fault)
              | .ok workflows => pure (.ok (workflow :: workflows))

/-- Takes in all that a call names: the planner before the batch, and the batch. -/
def loadAll (planning : Planning α) :
    m (Except (LoadFault α) (Planner α × List (Workflow α))) := do
  match ← load files .planning planning.catalog Setup.ofText with
  | .error fault => pure (.error fault)
  | .ok setup =>
      match planning.override setup.settings with
      | .error fault => pure (.error fault)
      | .ok settings =>
          match ← loadWorkflows files setup.catalog 1 planning.workflows with
          | .error fault => pure (.error fault)
          | .ok workflows => pure (.ok (Planner.start setup.catalog settings, workflows))

end Loading

/-- The lines of the log about a workflow and its result. -/
def resultLog (workflow : Workflow α) : Except (PlanFault α) (Plan α) → List LogLine
  | .ok plan => (plan.lines workflow).map (⟨.info, ·⟩)
  | .error fault => [⟨.error, fault.line workflow⟩]

/-- Plans a batch and reports on it. -/
def report (order : SubmissionOrder) (planner : Planner α) (workflows : List (Workflow α)) :
    Ending :=
  let (last, results) := planner.planBatch order workflows
  let failed := results.countP fun (_, result) => !result.isOk
  let planned := results.length - failed
  let log := results.flatMap (fun (workflow, result) => resultLog workflow result) ++
    [⟨.info, last.closingLine planned failed⟩]
  if failed = 0 then ⟨0, "", log⟩
  else
    let message := Decimal.natText failed ++ " of " ++ Decimal.natText results.length ++
      " workflow(s) could not be planned"
    ⟨1, "", log ++ [⟨.error, message⟩]⟩

/-- Makes a call. -/
def perform {m : Type → Type} [Monad m] (files : FileAccess m) (planning : Planning α) :
    m Ending := do
  match ← loadAll files planning with
  | .error fault => pure (.failure fault.message)
  | .ok (planner, workflows) => pure (report planning.order planner workflows)

/-- Runs the command on its words. -/
def run {m : Type → Type} [Monad m] (α : Type) [Scalar α] [Numeral α] (files : FileAccess m)
    (words : List String) : m Ending :=
  match CommandLine.read (rules α) words with
  | .misuse => pure .misuse
  | .help => pure .help
  | .options given =>
      match (ofGiven? given : Option (Planning α)) with
      | some planning => perform files planning
      | none => pure .misuse

end Planning

end WattPlan.CommandLine
