import Mathlib.Data.List.Basic
import WattPlan.Timeline

/-!
# What a new window leaves in place

A commit adds one window to one timeline. The windows that were there stay, in their order and on
their nodes (`sublist_ofNode_insert`), and all windows together are the old ones with the new one
(`windows_insert_perm`). Nothing here depends on the arithmetic.
-/

namespace WattPlan

variable {α : Type} [Scalar α]

namespace Timeline

variable {timeline : Timeline α} {window : Window α}

/-- A timeline with a new window has the old windows and the new one. -/
theorem insert_perm (timeline : Timeline α) (window : Window α) :
    (timeline.insert window).windows.Perm (window :: timeline.windows) := by
  unfold insert
  refine List.perm_middle.trans (List.Perm.cons window ?_)
  rw [List.takeWhile_append_dropWhile]

/-- A new window leaves the old ones in their order. -/
theorem sublist_insert (timeline : Timeline α) (window : Window α) :
    timeline.windows.Sublist (timeline.insert window).windows := by
  have hsplit := List.takeWhile_append_dropWhile
    (p := fun other : Window α => decide (other.start ≤ window.start)) (l := timeline.windows)
  have hinsert := List.Sublist.append
    (List.Sublist.refl (timeline.windows.takeWhile fun other =>
      decide (other.start ≤ window.start)))
    (List.sublist_cons_self window
      (timeline.windows.dropWhile fun other => decide (other.start ≤ window.start)))
  rw [hsplit] at hinsert
  exact hinsert

/-- A window is in a timeline with a new one if it is the new one or was there before. -/
theorem mem_insert {other : Window α} :
    other ∈ (timeline.insert window).windows ↔ other = window ∨ other ∈ timeline.windows := by
  rw [(insert_perm timeline window).mem_iff, List.mem_cons]

end Timeline

namespace Timelines

/-- The windows of all nodes, node by node. -/
def windows {α : Type} (timelines : Timelines α) : List (Window α) :=
  timelines.nodes.flatMap Timeline.windows

/-- The timelines with a new window on a node. -/
def insert (timelines : Timelines α) (node : NodeId) (window : Window α) : Timelines α :=
  ⟨timelines.nodes.set node ((timelines.ofNode node).insert window)⟩

variable {timelines : Timelines α} {node : NodeId} {window : Window α}

omit [Scalar α] in
/-- A node of idle timelines has the timeline of an idle node. -/
theorem ofNode_idle (count : Nat) (node : NodeId) :
    (idle count : Timelines α).ofNode node = Timeline.idle := by
  by_cases hlt : node < count <;> simp [idle, ofNode, hlt]

omit [Scalar α] in
/-- The windows of a node are among those of all nodes. -/
theorem mem_windows_of_mem_ofNode (h : window ∈ (timelines.ofNode node).windows) :
    window ∈ timelines.windows := by
  unfold ofNode at h
  cases hnode : timelines.nodes[node]? with
  | none => simp [hnode, Timeline.idle] at h
  | some timeline =>
      rw [hnode] at h
      exact List.mem_flatMap.2 ⟨timeline, List.mem_of_getElem? hnode, h⟩

/-- A commit puts a window into the first gap that holds it. -/
theorem commit_eq (timelines : Timelines α) (node : NodeId) (duration ready : α) (job : JobRef) :
    timelines.commit node duration ready job =
      (timelines.insert node
        ⟨(timelines.ofNode node).probe duration ready,
          (timelines.ofNode node).probe duration ready + duration, job⟩,
        ⟨(timelines.ofNode node).probe duration ready,
          (timelines.ofNode node).probe duration ready + duration, job⟩) :=
  rfl

/-- A new window leaves the number of nodes. -/
theorem length_insert : (timelines.insert node window).nodes.length = timelines.nodes.length := by
  simp [insert]

/-- The node of a new window has it in its timeline. -/
theorem ofNode_insert_self (h : node < timelines.nodes.length) :
    (timelines.insert node window).ofNode node = (timelines.ofNode node).insert window := by
  simp [insert, ofNode, h]

/-- A new window leaves the timelines of the other nodes. -/
theorem ofNode_insert_of_ne {other : NodeId} (h : node ≠ other) :
    (timelines.insert node window).ofNode other = timelines.ofNode other := by
  simp [insert, ofNode, List.getElem?_set_ne h]

/-- A new window leaves the old ones on their nodes and in their order. -/
theorem sublist_ofNode_insert (other : NodeId) :
    (timelines.ofNode other).windows.Sublist
      ((timelines.insert node window).ofNode other).windows := by
  by_cases heq : node = other
  · subst heq
    by_cases hlt : node < timelines.nodes.length
    · rw [ofNode_insert_self hlt]
      exact Timeline.sublist_insert _ _
    · have hnone : timelines.nodes[node]? = none := List.getElem?_eq_none (Nat.le_of_not_lt hlt)
      simp [ofNode, hnone, Timeline.idle]
  · rw [ofNode_insert_of_ne heq]

/-- A window of a node is the new one or was there before. -/
theorem mem_ofNode_insert {other : NodeId} {found : Window α}
    (h : found ∈ ((timelines.insert node window).ofNode other).windows) :
    found = window ∨ found ∈ (timelines.ofNode other).windows := by
  by_cases heq : node = other
  · subst heq
    by_cases hlt : node < timelines.nodes.length
    · rwa [ofNode_insert_self hlt, Timeline.mem_insert] at h
    · rw [insert, List.set_eq_of_length_le (Nat.le_of_not_lt hlt)] at h
      exact .inr h
  · rw [ofNode_insert_of_ne heq] at h
    exact .inr h

/-- All windows with a new one are the old ones and the new one. -/
theorem windows_insert_perm (h : node < timelines.nodes.length) :
    (timelines.insert node window).windows.Perm (window :: timelines.windows) := by
  have hat : timelines.ofNode node = timelines.nodes[node] := by
    rw [ofNode, List.getElem?_eq_getElem h, Option.getD_some]
  have hold : timelines.windows = (timelines.nodes.take node).flatMap Timeline.windows ++
      ((timelines.ofNode node).windows ++
        (timelines.nodes.drop (node + 1)).flatMap Timeline.windows) := by
    rw [windows, hat, ← List.flatMap_cons, List.getElem_cons_drop, ← List.flatMap_append,
      List.take_append_drop]
  have hnew : (timelines.insert node window).nodes = timelines.nodes.take node ++
      (timelines.ofNode node).insert window :: timelines.nodes.drop (node + 1) :=
    List.set_eq_take_append_cons_drop.trans (if_pos h)
  rw [hold, windows, hnew, List.flatMap_append, List.flatMap_cons]
  refine List.Perm.trans (List.Perm.append_left _ ?_) List.perm_middle
  exact List.Perm.append_right _ (Timeline.insert_perm _ _)

end Timelines

end WattPlan
