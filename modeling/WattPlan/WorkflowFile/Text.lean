import WattPlan.WorkflowFile
import WattPlan.Yaml.Reading
import WattPlan.Yaml.Writing

/-!
# Workflow files as text

The text of a workflow file is the document of its tree.
-/

namespace WattPlan.WorkflowFile

variable {α : Type} [Numeral α]

/-- The workflow file that a text describes. -/
def ofText [Scalar α] (text : String) : Except (LoadFault α) (WorkflowFile α) :=
  match (Yaml.parse? text).bind ofTree? with
  | some file => .ok file
  | none => .error (.unreadable .workflow)

/-- The text of a workflow file. -/
def text (file : WorkflowFile α) : String :=
  Yaml.render file.toTree

end WattPlan.WorkflowFile
