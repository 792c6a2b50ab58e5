import WattPlan.Yaml.Node
import WattPlan.Yaml.Token.Scan
import WattPlan.Yaml.Tree

/-!
# Reading documents

`Yaml.parse?` reads the tree of a document, in which each reference is replaced by what it stands
for. A document in which that takes too many steps, or nests collections too deeply, is refused, as
is one with a key that is no scalar.
-/

namespace WattPlan.Yaml

variable {α : Type}

/-- The tree of a scalar. -/
def scalarTree (tag : Option String) (form : Form) (content : String) : Tree α :=
  match form, tag with
  | .plain, none => .plain content
  | .plain, some tag => .tagged (if tag = Tag.null then .nothing else .something) content
  | .literal, some tag =>
      if tag = Tag.float then .tagged .quantity content
      else if tag = Tag.int then .tagged .natural content
      else .text content
  | _, _ => .text content

namespace Node

/-- The node that is meant: for a reference that of its anchor, and else the node itself. The state
is the number of references that may still be replaced. -/
def meant (anchored : List (Nat × Node)) : Node → StateT Nat Option Node
  | .reference id => fun left =>
      match left, anchored.lookup id with
      | left + 1, some node => some (node, left)
      | _, _ => none
  | node => pure node

/-- The key that a node is. -/
def key? (anchored : List (Nat × Node)) (node : Node) : StateT Nat Option String := do
  match ← node.meant anchored with
  | .scalar _ _ _ content => pure content
  | _ => failure

/-- The tree of a node that is nested less deeply than the given depth. -/
def tree? (anchored : List (Nat × Node)) : Nat → Node → StateT Nat Option (Tree α)
  | 0, _ => failure
  | depth + 1, node => do
      match ← node.meant anchored with
      | .reference _ => failure
      | .scalar _ tag form content => pure (scalarTree tag form content)
      | .sequence _ items => do
          let items ← items.mapM (tree? anchored depth)
          pure (.sequence items)
      | .mapping _ entries => do
          let entries ← entries.mapM fun (key, value) => do
            let key ← key.key? anchored
            let value ← tree? anchored depth value
            pure (key, value)
          pure (.mapping entries)

/-- The number of references that may be replaced for each event of a document. -/
def referencesPerEvent : Nat :=
  100

end Node

/-- The tree of a document. -/
def parse? (text : String) : Option (Tree α) := do
  let chars := unifyBreaks text.toList
  guard (chars.all isAllowed)
  let node ← Node.ofTokens? (← Token.ofText? chars)
  let references := Node.referencesPerEvent * node.events
  let (tree, _) ← node.tree? node.anchored (Node.deepest + 1) references
  some tree

end WattPlan.Yaml
