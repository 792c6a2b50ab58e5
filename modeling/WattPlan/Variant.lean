import WattPlan.Deadline

/-!
# Planning variants

A variant is data: a `Profile` that names the choice made at each point where planning can go one
way or another. The search for a plan reads the profile and never asks which variant it serves.
-/

namespace WattPlan

/-- The order in which jobs are first taken: by descending upward rank, by depth, by earliest
finish, or by depth with the jobs on long ways first. -/
inductive PriorityKey where
  | upwardRank
  | depth
  | eft
  | criticalPath
deriving DecidableEq, Repr

/-- The sites that are searched for a job. -/
inductive SiteOrdering where
  | random
  | cheapestAveragePrice
  | cheapestCurrentPrice
  | dataLocality
  | priceAscending
  | instructionsPerPrice
  | allSites
  | boundedRetry
deriving DecidableEq, Repr

/-- The order of the nodes of a site: as declared, or the most efficient first. -/
inductive NodeOrdering where
  | asListed
  | efficiencyDesc
deriving DecidableEq, Repr

/-- Which nodes of a site are considered: the first feasible one, that one and the later ones that
hold data of the job, or all. -/
inductive NodeSelection where
  | firstFeasible
  | firstFeasibleThenLocal
  | allNodes
deriving DecidableEq, Repr

/-- Which power levels of a node are considered: the fastest, the fastest and then the slowest that
fits, all of them, or one at random. -/
inductive LevelSearch where
  | fastestOnly
  | fastestThenRelax
  | exhaustive
  | random
deriving DecidableEq, Repr

/-- What makes one candidate better than another. -/
inductive Objective where
  | cost
  | finishTime
deriving DecidableEq, Repr

/-- The time for which staging is billed: from the first arrival until all is there, or each
transfer by itself. -/
inductive StagingBilling where
  | readyWindow
  | perTransfer
deriving DecidableEq, Repr

/-- The jobs whose order may be exchanged: those of one depth, or the children of one job. -/
inductive TieRule where
  | sharedDepth
  | sharedParent
deriving DecidableEq, Repr

/-- How many passes without an improvement are allowed: none after the first pass, a share of the
jobs in tie groups, the number of tie groups, or that and a share of the jobs. -/
inductive SearchBudget where
  | singlePass
  | fractionOfCandidates
  | groupCount
  | boundedFractionOfJobs
deriving DecidableEq, Repr

/-- Every choice that a variant makes. -/
structure Profile where
  priority : PriorityKey
  subDeadline : SubDeadlineRule
  siteOrdering : SiteOrdering
  nodeOrdering : NodeOrdering
  nodeSelection : NodeSelection
  levelSearch : LevelSearch
  objective : Objective
  staging : StagingBilling
  tieGroups : TieRule
  budget : SearchBudget
  averaging : TransferAveraging
  speed : SpeedReference
  reliabilityPruning : Bool
deriving DecidableEq, Repr

/-- The variants of planning. -/
inductive Variant where
  | random
  | heft
  | epee
  | dews
  | ecwsd
  | reliabilityAware
deriving DecidableEq, Repr

namespace Variant

/-- All variants. -/
def all : List Variant :=
  [random, heft, epee, dews, ecwsd, reliabilityAware]

/-- The name of a variant. -/
def name : Variant → String
  | random => "random"
  | heft => "heft"
  | epee => "epee"
  | dews => "dews"
  | ecwsd => "ecwsd"
  | reliabilityAware => "reliability_aware"

/-- The choices of a variant. -/
def profile : Variant → Profile
  | random =>
      { priority := .upwardRank
        subDeadline := .eftScaled
        siteOrdering := .allSites
        nodeOrdering := .asListed
        nodeSelection := .allNodes
        levelSearch := .random
        objective := .cost
        staging := .readyWindow
        tieGroups := .sharedDepth
        budget := .singlePass
        averaging := .siteAggregated
        speed := .mean
        reliabilityPruning := false }
  | heft =>
      { priority := .upwardRank
        subDeadline := .eftScaled
        siteOrdering := .allSites
        nodeOrdering := .asListed
        nodeSelection := .allNodes
        levelSearch := .fastestOnly
        objective := .finishTime
        staging := .readyWindow
        tieGroups := .sharedDepth
        budget := .singlePass
        averaging := .siteAggregated
        speed := .mean
        reliabilityPruning := false }
  | epee =>
      { priority := .upwardRank
        subDeadline := .positionShare
        siteOrdering := .instructionsPerPrice
        nodeOrdering := .efficiencyDesc
        nodeSelection := .firstFeasible
        levelSearch := .fastestThenRelax
        objective := .cost
        staging := .perTransfer
        tieGroups := .sharedDepth
        budget := .singlePass
        averaging := .nodePairs
        speed := .fastest
        reliabilityPruning := false }
  | dews =>
      { priority := .depth
        subDeadline := .eftScaled
        siteOrdering := .boundedRetry
        nodeOrdering := .efficiencyDesc
        nodeSelection := .firstFeasibleThenLocal
        levelSearch := .fastestThenRelax
        objective := .cost
        staging := .readyWindow
        tieGroups := .sharedDepth
        budget := .fractionOfCandidates
        averaging := .siteAggregated
        speed := .mean
        reliabilityPruning := false }
  | ecwsd =>
      { priority := .eft
        subDeadline := .depthShare
        siteOrdering := .priceAscending
        nodeOrdering := .asListed
        nodeSelection := .allNodes
        levelSearch := .fastestOnly
        objective := .cost
        staging := .readyWindow
        tieGroups := .sharedParent
        budget := .boundedFractionOfJobs
        averaging := .siteAggregated
        speed := .fastest
        reliabilityPruning := false }
  | reliabilityAware =>
      { priority := .criticalPath
        subDeadline := .rankShare
        siteOrdering := .cheapestCurrentPrice
        nodeOrdering := .asListed
        nodeSelection := .allNodes
        levelSearch := .exhaustive
        objective := .cost
        staging := .readyWindow
        tieGroups := .sharedDepth
        budget := .groupCount
        averaging := .siteAggregated
        speed := .mean
        reliabilityPruning := true }

/-- The white space that may surround a name. -/
def isBlank (c : Char) : Bool :=
  let n := c.toNat
  (9 ≤ n && n ≤ 13) || n = 0x20 || n = 0x85 || n = 0xA0 || n = 0x1680 ||
    (0x2000 ≤ n && n ≤ 0x200A) || n = 0x2028 || n = 0x2029 || n = 0x202F || n = 0x205F ||
    n = 0x3000

/-- The text without the white space around it. -/
def trimmed (chars : List Char) : List Char :=
  ((chars.dropWhile isBlank).reverse.dropWhile isBlank).reverse

/-- A name as it is compared: trimmed, in lower case, with underscores for hyphens. -/
def canonicalName (text : String) : String :=
  String.ofList ((trimmed text.toList).map fun c => if c = '-' then '_' else c.toLower)

/-- The variant of a name. -/
def ofName {α : Type} (text : String) : Except (PlanFault α) Variant :=
  match all.find? fun variant => variant.name = canonicalName text with
  | some variant => .ok variant
  | none => .error (.unknownVariant text)

end Variant

end WattPlan
