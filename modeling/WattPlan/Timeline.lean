import WattPlan.Workflow

/-!
# Timelines

The timeline of a node lists the windows in which it is busy, by their start. A job goes into the
first gap that holds it, where the first gap begins at 0 and the last one has no end. A gap just as
long as the job holds it. `Timelines` keeps one timeline for each node of a catalog.
-/

namespace WattPlan

/-- A busy interval `[start, finish)` of a node. -/
structure Window (α : Type) where
  start : α
  finish : α
  job : JobRef
deriving DecidableEq, Repr

/-- The busy windows of a node, by start. -/
structure Timeline (α : Type) where
  windows : List (Window α)
deriving DecidableEq, Repr

namespace Timeline

/-- The timeline of an idle node. -/
def idle {α : Type} : Timeline α :=
  ⟨[]⟩

variable {α : Type} [Scalar α]

/-- The end of the last window, 0 for an idle node. -/
def busyUntil (timeline : Timeline α) : α :=
  match timeline.windows.getLast? with
  | some window => window.finish
  | none => 0

/-- The earliest start in the gap that begins at `gap`, or in one of the gaps after the windows
that follow it. -/
def probeFrom (duration ready : α) : α → List (Window α) → α
  | gap, [] => Scalar.max gap ready
  | gap, window :: rest =>
      let start := Scalar.max gap ready
      if start + duration ≤ window.start then start
      else probeFrom duration ready (Scalar.max gap window.finish) rest

/-- The earliest start, not before `ready`, at which the node is idle for `duration`. -/
def probe (timeline : Timeline α) (duration ready : α) : α :=
  probeFrom duration ready 0 timeline.windows

/-- Puts a window behind those that start no later. -/
def insert (timeline : Timeline α) (window : Window α) : Timeline α :=
  let earlier := fun other : Window α => decide (other.start ≤ window.start)
  ⟨timeline.windows.takeWhile earlier ++ window :: timeline.windows.dropWhile earlier⟩

/-- Reserves the earliest gap for a job: the timeline after it and the new window. That the windows
are still sorted and disjoint (`isConsistent`) is not checked here: a build with debug assertions
stops where they are not, and what is meant is a build without them. -/
def commit (timeline : Timeline α) (duration ready : α) (job : JobRef) :
    Timeline α × Window α :=
  let start := timeline.probe duration ready
  let window := ⟨start, start + duration, job⟩
  (timeline.insert window, window)

/-- The start of the first window that begins after an instant. -/
def nextStart? (timeline : Timeline α) (t : α) : Option α :=
  (timeline.windows.map Window.start).find? fun start => decide (t < start)

/-- Does each window begin no earlier than the one before it, and no earlier than its end? -/
def consistentFrom : List (Window α) → Bool
  | first :: second :: rest =>
      decide (first.start ≤ second.start) && decide (first.finish ≤ second.start) &&
        consistentFrom (second :: rest)
  | _ => true

/-- Are the windows sorted and disjoint? -/
def isConsistent (timeline : Timeline α) : Bool :=
  consistentFrom timeline.windows

end Timeline

/-- The timelines of the nodes of a catalog, by node. -/
structure Timelines (α : Type) where
  nodes : List (Timeline α)
deriving DecidableEq, Repr

namespace Timelines

/-- The timelines of idle nodes. -/
def idle {α : Type} (count : Nat) : Timelines α :=
  ⟨List.replicate count Timeline.idle⟩

/-- The timeline of a node. A node without one is idle. -/
def ofNode {α : Type} (timelines : Timelines α) (node : NodeId) : Timeline α :=
  (timelines.nodes[node]?).getD Timeline.idle

/-- The number of windows on all nodes. -/
def windowCount {α : Type} (timelines : Timelines α) : Nat :=
  (timelines.nodes.flatMap Timeline.windows).length

/-- Reserves the earliest gap of a node for a job. -/
def commit {α : Type} [Scalar α] (timelines : Timelines α) (node : NodeId) (duration ready : α)
    (job : JobRef) : Timelines α × Window α :=
  let (timeline, window) := (timelines.ofNode node).commit duration ready job
  (⟨timelines.nodes.set node timeline⟩, window)

end Timelines

end WattPlan
