import WattPlan.Main
import WattPlan.Proofs.CommandLine.Generation
import WattPlan.Proofs.CommandLine.Numbers
import WattPlan.Proofs.Deadline.Rules
import WattPlan.Proofs.LayeredWorkflow.Shape
import WattPlan.Proofs.LocalSearch.InitialOrder
import WattPlan.Proofs.LocalSearch.Perturbation
import WattPlan.Proofs.LocalSearch.Records
import WattPlan.Proofs.Pass.Feasibility
import WattPlan.Proofs.Pass.GlobalChoice
import WattPlan.Proofs.Pass.StagingBills
import WattPlan.Proofs.Placement.Exhaustive
import WattPlan.Proofs.Placement.Relaxation
import WattPlan.Proofs.Placement.Retries
import WattPlan.Proofs.Planner.Consistency
import WattPlan.Proofs.Planner.Failure
import WattPlan.Proofs.Planner.Schedule
import WattPlan.Proofs.Planner.Seeds
import WattPlan.Proofs.Planner.Totality
import WattPlan.Proofs.Planner.Workload
import WattPlan.Proofs.PlanningDocument.Numbering
import WattPlan.Proofs.RejectedSteps
import WattPlan.Proofs.Reservations
import WattPlan.Proofs.Submission
import WattPlan.Proofs.Tariff.Average
import WattPlan.Proofs.WeakOrder
import WattPlan.Proofs.Workflow.Analysis
import WattPlan.Proofs.Workflow.Inputs
import WattPlan.Proofs.Workflow.StuckJobs
import WattPlan.Proofs.WorkflowFile.Acceptance
import WattPlan.Proofs.WorkflowFile.Records
