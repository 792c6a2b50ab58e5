import WattPlan.Decimal

/-!
# Labels

What is known by a number is spoken of by a label: a word for its kind and the number.
-/

namespace WattPlan

/-- The kinds of things that are known by a number. -/
inductive Label where
  | site
  | node
  | job
  | workflow
deriving DecidableEq, Repr

/-- The word for a kind. -/
def Label.word : Label → String
  | .site => "site"
  | .node => "node"
  | .job => "job"
  | .workflow => "wf"

/-- The label of a number. -/
def Label.text (label : Label) (id : Nat) : String :=
  label.word ++ "#" ++ Decimal.natText id

end WattPlan
