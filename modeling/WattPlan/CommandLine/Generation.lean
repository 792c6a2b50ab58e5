import WattPlan.CommandLine.Files
import WattPlan.CommandLine.Options
import WattPlan.LayeredWorkflow
import WattPlan.WorkflowFile.Text

/-!
# The command that generates workflows

The command draws a random layered workflow and writes it to a file, or prints it where no file is
named.
-/

namespace WattPlan.CommandLine

open LayeredWorkflow

/-- A call of the command. -/
structure Generation (α : Type) where
  shape : Shape α
  seed : Nat
  output : Option String

/-- A refused shape in words, by the options that state it. -/
def shapeFaultMessage : ShapeFault → String
  | .noJobs => "--layers and --width must be positive"
  | .lengths => "need 0 < --min-length <= --max-length"
  | .data => "--max-data must not be negative"
  | .probability => "--edge-probability must be within [0, 1]"

namespace Generation

variable {α : Type} [Numeral α]

/-- The options of the command. -/
def rules (α : Type) [Numeral α] : List OptionRule :=
  let quantity := fun long => OptionRule.reading long (Numeral.ofWord? (α := α))
  let count := fun long => OptionRule.reading long readCount?
  [.text "name", count "id", count "layers", count "width", quantity "min-length",
    quantity "max-length", quantity "max-data", quantity "edge-probability", .text "input-node",
    quantity "submitted-at", count "seed", .path "output" 'o']

/-- The call that options stand for. -/
def ofGiven [Scalar α] (given : Given) : Generation α :=
  let quantity := fun long (standard : α) => (given.read? long Numeral.ofWord?).getD standard
  let count := fun long => given.read? long readCount?
  { shape :=
      { name := (given.value? "name").getD "generated"
        id := count "id"
        layers := (count "layers").getD 4
        width := (count "width").getD 3
        minLength := quantity "min-length" 1000000
        maxLength := quantity "max-length" 10000000
        maxData := quantity "max-data" 1000000
        edgeProbability := quantity "edge-probability" (3 / 10)
        inputNode := given.value? "input-node"
        submittedAt := quantity "submitted-at" 0 }
    seed := (count "seed").getD 0
    output := given.value? "output" }

/-- The workflow of a call, if its shape can be drawn. -/
def file [Scalar α] (generation : Generation α) : Except ShapeFault (WorkflowFile α) :=
  match generation.shape.fault? with
  | some fault => .error fault
  | none => .ok (generation.shape.draw.run (Generator.ofSeed (UInt64.ofNat generation.seed))).1

/-- Makes a call. One for a shape that is not refused but cannot be drawn breaks off, before anything
is printed or written. -/
def perform {m : Type → Type} [Monad m] [Scalar α] (files : FileAccess m)
    (generation : Generation α) : m Ending :=
  match generation.file with
  | .error fault => pure (.failure (shapeFaultMessage fault))
  | .ok file =>
      if !generation.shape.isDrawable then pure .abort
      else
        match generation.output with
        | none => pure ⟨0, file.text, []⟩
        | some path => do
            match ← files.write path file.text with
            | .ok () => pure ⟨0, "", []⟩
            | .error fault =>
                let fault : LoadFault α := .during (.writing path) (.file fault)
                pure (.failure fault.message)

/-- Runs the command on its words. -/
def run {m : Type → Type} [Monad m] (α : Type) [Numeral α] [Scalar α] (files : FileAccess m)
    (words : List String) : m Ending :=
  match CommandLine.read (rules α) words with
  | .misuse => pure .misuse
  | .help => pure .help
  | .options given => perform files (ofGiven given : Generation α)

end Generation

end WattPlan.CommandLine
