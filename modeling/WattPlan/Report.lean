import WattPlan.Numeral
import WattPlan.Planner

/-!
# Reports of plans

A report has a line for each plan, a line for each placement of a plan, and a closing line for the
planner. Names are filled up with blanks to columns.
-/

namespace WattPlan

open Decimal

/-- A text filled up with blanks to a width. A longer text stays as it is. -/
def padTo (width : Nat) (text : String) : String :=
  text ++ String.ofList (List.replicate (width - text.length) ' ')

/-- A workflow number in a report. -/
def workflowLabel (id : WorkflowId) : String :=
  "[" ++ Label.workflow.text id ++ "]"

variable {α : Type} [Numeral α]

namespace Plan

/-- The line of a plan. -/
def headline (plan : Plan α) : String :=
  workflowLabel plan.workflow ++ " " ++ plan.name ++
    " | cost " ++ Numeral.fixed 6 plan.cost ++
    " | finish " ++ Numeral.fixed 1 plan.finishTime ++
    "s / deadline " ++ Numeral.fixed 1 plan.deadline ++
    "s | reliability " ++ Numeral.fixed 6 plan.reliability ++
    " / goal " ++ Numeral.fixed 6 plan.reliabilityGoal ++
    " | passes " ++ natText plan.passes.length

end Plan

/-- The line of a placement. -/
def Placement.line (workflow : Workflow α) (placement : Placement α) : String :=
  "    " ++ padTo 24 (workflow.jobName placement.job) ++
    " node=" ++ padTo 12 placement.node.name ++
    " level=" ++ natText placement.level ++
    " start=" ++ Numeral.fixed 1 placement.start ++
    " finish=" ++ Numeral.fixed 1 placement.finish ++
    " cost=" ++ Numeral.fixed 6 placement.cost

/-- The lines of a plan and its placements. -/
def Plan.lines (workflow : Workflow α) (plan : Plan α) : List String :=
  plan.headline :: plan.placements.map (Placement.line workflow)

/-- The line of a workflow without a plan. -/
def PlanFault.line (workflow : Workflow α) (fault : PlanFault α) : String :=
  workflowLabel workflow.id ++ " " ++ workflow.name ++ ": " ++ fault.message

/-- The closing line of a planner. -/
def Planner.closingLine (planner : Planner α) (planned failed : Nat) : String :=
  "=== Planning complete === total_cost=" ++ Numeral.report planner.totalCost ++
    " finish=" ++ Numeral.report planner.globalFinishTime ++
    " planned=" ++ natText planned ++
    " failed=" ++ natText failed

end WattPlan
