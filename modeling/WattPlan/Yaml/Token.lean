import WattPlan.Yaml.Tag

/-!
# Tokens of a document

A token is a scalar, a sign, or the beginning or end of a collection. The collections of a block
have no signs for their ends and for the beginnings of mappings; their tokens stand where the
columns of the text say so, and a `key` token stands before every key. Anchors and the references
to them are numbered.
-/

namespace WattPlan.Yaml

/-- The kinds of collections. -/
inductive Collection where
  | sequence
  | mapping
deriving DecidableEq, Repr

/-- A token of a document. -/
inductive Token where
  | directive (directive : Directive)
  | documentStart
  | documentEnd
  | openBlock (kind : Collection)
  | closeBlock
  | openFlow (kind : Collection)
  | closeFlow (kind : Collection)
  | dash
  | comma
  | key
  | value
  | anchor (id : Nat)
  | reference (id : Nat)
  | tag (tag : Tag)
  | scalar (form : Form) (content : String)
deriving DecidableEq, Repr

end WattPlan.Yaml
