import WattPlan.Label
import WattPlan.Numeral

/-!
# What can go wrong

A `ModelFault` is why a tariff, a catalog or a workflow is refused while it is drawn up; a
`PlanFault` is why a workflow gets no plan; a `LoadFault` is why a file cannot be taken in, with the
circumstances under which the cause was met. Each fault carries what it is about, and `message` is
the one place where it is put into words.
-/

namespace WattPlan

open Decimal

/-- What is wrong with a power level. -/
inductive LevelFault where
  | speed
  | power
  | failureRate
deriving DecidableEq, Repr

/-- The rule that a power level breaks. -/
def LevelFault.message : LevelFault → String
  | .speed => "speed must be finite and positive"
  | .power => "power must be finite and non-negative"
  | .failureRate => "failure rate must be finite and non-negative"

/-- A kind of network link. -/
inductive Link where
  | intraSite
  | interSite
deriving DecidableEq, Repr

/-- The name of a kind of link. -/
def Link.name : Link → String
  | .intraSite => "intra-site"
  | .interSite => "inter-site"

/-- Why a tariff, a catalog or a workflow is refused. -/
inductive ModelFault (α : Type) where
  | emptyTariff
  | invalidPrice (hour : Nat) (price : α)
  | noPowerLevels (node : String)
  | invalidPowerLevel (node : String) (level : Nat) (reason : LevelFault)
  | unorderedPowerLevels (node : String)
  | unknownSite (node : String) (site : Nat)
  | duplicateNode (node : String)
  | noNodes
  | invalidBandwidth (link : Link) (value : α)
  | duplicateJob (job : String)
  | invalidJobLength (job : String) (length : α)
  | unknownJob (job : Nat)
  | invalidArtifactSize (artifact : String) (size : α)
  | cyclicWorkflow (workflow : String) (job : String)
deriving DecidableEq, Repr

/-- A derived time of a job. -/
inductive Metric where
  | earliestFinish
  | upwardRank
  | downwardRank
deriving DecidableEq, Repr

/-- The name of a derived time. -/
def Metric.name : Metric → String
  | .earliestFinish => "earliest finish time"
  | .upwardRank => "upward rank"
  | .downwardRank => "downward rank"

/-- Why a workflow gets no plan. Only `emptyWorkflow`, `unknownVariant` and `infeasible` speak of
the input; the other two say that jobs were taken in an impossible order. -/
inductive PlanFault (α : Type) where
  | emptyWorkflow (workflow : String)
  | unknownVariant (name : String)
  | missingMetric (metric : Metric) (job : String) (neighbour : String)
  | inconsistentPrecedence (workflow : String) (job : String) (parent : String)
  | infeasible (id : Nat) (workflow : String) (slackFactor reliabilityGoal deadline : α)
deriving DecidableEq, Repr

/-- Which of the two files a text was to be. -/
inductive DocumentKind where
  | planning
  | workflow
deriving DecidableEq, Repr

/-- What was being done when a fault was met. -/
inductive Circumstance where
  | tariffOf (site : String)
  | nodeIn (site : String)
  | dagOf (workflow : String)
  | reading (kind : DocumentKind) (path : String)
  | opening (kind : DocumentKind) (path : String)
  | writing (path : String)
deriving DecidableEq, Repr

/-- Why a file cannot be read or written. -/
inductive FileFault where
  | missing
  | notDirectory
  | isDirectory
  | nameTooLong
  | other (text : String)
deriving DecidableEq, Repr

/-- Why a file cannot be taken in or given out. -/
inductive LoadFault (α : Type) where
  | unreadable (kind : DocumentKind)
  | model (fault : ModelFault α)
  | plan (fault : PlanFault α)
  | unknownParent (job parent : String)
  | unknownLocation (input job node : String)
  | file (fault : FileFault)
  | during (circumstance : Circumstance) (cause : LoadFault α)
deriving DecidableEq, Repr

/-- A fault of a draft in words. -/
def ModelFault.message {α : Type} [Numeral α] : ModelFault α → String
  | .emptyTariff => "price schedule has no hourly entries"
  | .invalidPrice hour price =>
      "price " ++ Numeral.message price ++ " for hour " ++ natText hour ++
        " is not a finite non-negative number"
  | .noPowerLevels node => "node '" ++ node ++ "' declares no power levels"
  | .invalidPowerLevel node level reason =>
      "node '" ++ node ++ "' power level " ++ natText level ++ " is invalid: " ++ reason.message
  | .unorderedPowerLevels node =>
      "power levels of node '" ++ node ++ "' are not ordered fastest to slowest"
  | .unknownSite node site =>
      "node '" ++ node ++ "' references unknown site #" ++ natText site
  | .duplicateNode node => "node name '" ++ node ++ "' is declared twice"
  | .noNodes => "catalog declares no nodes"
  | .invalidBandwidth link value =>
      link.name ++ " bandwidth must be positive, got " ++ Numeral.message value
  | .duplicateJob job => "job '" ++ job ++ "' is declared twice"
  | .invalidJobLength job length =>
      "job '" ++ job ++ "' has invalid length " ++ Numeral.message length
  | .unknownJob job => "unknown job #" ++ natText job
  | .invalidArtifactSize artifact size =>
      "artifact '" ++ artifact ++ "' has invalid size " ++ Numeral.message size
  | .cyclicWorkflow workflow job =>
      "workflow '" ++ workflow ++ "' contains a dependency cycle through job '" ++ job ++ "'"

/-- A failed plan in words. -/
def PlanFault.message {α : Type} [Numeral α] : PlanFault α → String
  | .emptyWorkflow workflow => "workflow '" ++ workflow ++ "' has no jobs"
  | .unknownVariant name =>
      "unknown planner: '" ++ name ++
        "' (valid: random, heft, epee, dews, ecwsd, reliability_aware)"
  | .missingMetric metric job neighbour =>
      metric.name ++ " of '" ++ neighbour ++ "' is not available while computing '" ++ job ++ "'"
  | .inconsistentPrecedence workflow job parent =>
      "workflow '" ++ workflow ++ "': job '" ++ job ++ "' was ordered before its parent '" ++
        parent ++ "'"
  | .infeasible id workflow slackFactor reliabilityGoal deadline =>
      "no feasible schedule for workflow " ++ Label.workflow.text id ++ " '" ++ workflow ++
        "' (slack factor " ++ Numeral.message slackFactor ++ ", reliability goal " ++
        Numeral.fixed 6 reliabilityGoal ++ ", deadline " ++ Numeral.fixed 1 deadline ++ "s)"

/-- What was being done, in words. -/
def Circumstance.message : Circumstance → String
  | .tariffOf site => "site '" ++ site ++ "' has an invalid price schedule"
  | .nodeIn site => "invalid node in site '" ++ site ++ "'"
  | .dagOf workflow => "workflow '" ++ workflow ++ "' is not a valid DAG"
  | .reading .planning path => "Invalid planning configuration: " ++ path
  | .reading .workflow path => "Failed to parse workflow file: " ++ path
  | .opening .planning path => "Cannot open configuration file: " ++ path
  | .opening .workflow path => "Cannot open workflow file: " ++ path
  | .writing path => "Cannot write workflow file: " ++ path

/-- A file that cannot be read or written, in words. -/
def FileFault.message : FileFault → String
  | .missing => "No such file or directory (os error 2)"
  | .notDirectory => "Not a directory (os error 20)"
  | .isDirectory => "Is a directory (os error 21)"
  | .nameTooLong => "File name too long (os error 36)"
  | .other text => text

/-- A failed load in words, the circumstances first and the cause last. -/
def LoadFault.message {α : Type} [Numeral α] : LoadFault α → String
  | .unreadable .planning => "Failed to parse planning YAML"
  | .unreadable .workflow => "Failed to parse workflow YAML"
  | .model fault => fault.message
  | .plan fault => fault.message
  | .unknownParent job parent => "job '" ++ job ++ "' lists unknown parent '" ++ parent ++ "'"
  | .unknownLocation input job node =>
      "input '" ++ input ++ "' of job '" ++ job ++ "' is stored on unknown node '" ++ node ++ "'"
  | .file fault => fault.message
  | .during circumstance cause => circumstance.message ++ ": " ++ cause.message

end WattPlan
