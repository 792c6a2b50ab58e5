import WattPlan.Yaml.Token

/-!
# Nodes of a document

The tokens of a document are put together to nodes: scalars, sequences, mappings and references to
nodes with an anchor. A document that stops short, has another document after it or leaves tokens
over is refused.

Each reader takes the tokens from its place on and gives those behind it. `fuel` bounds the steps:
no more than four are taken for a token.
-/

namespace WattPlan.Yaml

/-- A node of a document. -/
inductive Node where
  | reference (id : Nat)
  | scalar (anchor : Option Nat) (tag : Option String) (form : Form) (content : String)
  | sequence (anchor : Option Nat) (items : List Node)
  | mapping (anchor : Option Nat) (entries : List (Node × Node))

/-- What stands before a node: an anchor and a tag, in either order. -/
structure Properties where
  anchor : Option Nat
  tag : Option String

namespace Node

/-- A scalar of which nothing is written. -/
def empty : Node :=
  .scalar none none .plain ""

/-- Reads what stands before a node. -/
def properties? (handles : List (String × String)) :
    List Token → Option (Properties × List Token)
  | .anchor id :: .tag tag :: rest => do some (⟨some id, some (← tag.resolve? handles)⟩, rest)
  | .tag tag :: .anchor id :: rest => do some (⟨some id, some (← tag.resolve? handles)⟩, rest)
  | .anchor id :: rest => some (⟨some id, none⟩, rest)
  | .tag tag :: rest => do some (⟨none, some (← tag.resolve? handles)⟩, rest)
  | rest => some (⟨none, none⟩, rest)

/-- A scalar that is written. An exclamation mark alone is no tag of its own. -/
def written (properties : Properties) (form : Form) (content : String) : Node :=
  .scalar properties.anchor (properties.tag.filter (· ≠ "!")) form content

/-- Does the value of a key or the content of an item end before a token? -/
def endsValue (item : Bool) : List Token → Bool
  | .closeBlock :: _ => true
  | .dash :: _ => item
  | .key :: _ => true
  | .value :: _ => true
  | _ => false

/-- Does a member of a flow end before a token? -/
def endsMember (kind : Collection) : List Token → Bool
  | .comma :: _ => true
  | .value :: _ => true
  | .closeFlow other :: _ => kind = other
  | _ => false

/-- The tokens behind the comma before a further member of a flow, or at the end of it. -/
def nextMember? (kind : Collection) : List Token → Option (List Token)
  | .comma :: rest => some rest
  | .closeFlow other :: rest => if kind = other then some (.closeFlow other :: rest) else none
  | _ => none

variable (handles : List (String × String))

mutual

/-- Reads a node. In a block it can be a block, and where `bare` holds, one that begins with the
dash of its first item. -/
def read : Nat → Bool → Bool → List Token → Option (Node × List Token)
  | 0, _, _, _ => none
  | _ + 1, _, _, .reference id :: rest => some (.reference id, rest)
  | fuel + 1, block, bare, tokens => do
      let (properties, behind) ← properties? handles tokens
      match behind with
      | .scalar form content :: rest => some (written properties form content, rest)
      | .openFlow .sequence :: rest => do
          let (items, rest) ← flowItems fuel rest
          some (.sequence properties.anchor items, rest)
      | .openFlow .mapping :: rest => do
          let (entries, rest) ← flowEntries fuel rest
          some (.mapping properties.anchor entries, rest)
      | .openBlock .sequence :: rest => do
          guard block
          let (items, rest) ← blockItems fuel rest
          some (.sequence properties.anchor items, rest)
      | .openBlock .mapping :: rest => do
          guard block
          let (entries, rest) ← blockEntries fuel rest
          some (.mapping properties.anchor entries, rest)
      | _ =>
          if bare ∧ behind.head? = some .dash then do
            let (items, rest) ← bareItems fuel behind
            some (.sequence properties.anchor items, rest)
          else if properties.anchor.isSome ∨ properties.tag.isSome then
            some (.scalar properties.anchor properties.tag .plain "", behind)
          else none

/-- Reads the items of a block, to its end. -/
def blockItems : Nat → List Token → Option (List Node × List Token)
  | 0, _ => none
  | fuel + 1, tokens =>
      match tokens with
      | .dash :: rest => do
          let (item, rest) ← blockItem fuel rest
          let (items, rest) ← blockItems fuel rest
          some (item :: items, rest)
      | .closeBlock :: rest => some ([], rest)
      | _ => none

/-- Reads the items that stand below a key without being indented. -/
def bareItems : Nat → List Token → Option (List Node × List Token)
  | 0, _ => none
  | fuel + 1, tokens =>
      match tokens with
      | .dash :: rest => do
          let (item, rest) ← blockItem fuel rest
          let (items, rest) ← bareItems fuel rest
          some (item :: items, rest)
      | _ => some ([], tokens)

/-- Reads the content of an item, which can be empty. -/
def blockItem : Nat → List Token → Option (Node × List Token)
  | 0, _ => none
  | fuel + 1, tokens =>
      if endsValue true tokens then some (empty, tokens) else read fuel true false tokens

/-- Reads the entries of a block, to its end. -/
def blockEntries : Nat → List Token → Option (List (Node × Node) × List Token)
  | 0, _ => none
  | fuel + 1, tokens =>
      match tokens with
      | .key :: rest => do
          let (key, rest) ← blockValue fuel rest
          let (value, rest) ←
            match rest with
            | .value :: rest => blockValue fuel rest
            | _ => some (empty, rest)
          let (entries, rest) ← blockEntries fuel rest
          some ((key, value) :: entries, rest)
      | .closeBlock :: rest => some ([], rest)
      | _ => none

/-- Reads a key or a value of a block, which can be empty. -/
def blockValue : Nat → List Token → Option (Node × List Token)
  | 0, _ => none
  | fuel + 1, tokens =>
      if endsValue false tokens then some (empty, tokens) else read fuel true true tokens

/-- Reads the items of a flow, to its end. An item with a key is a mapping of one entry. -/
def flowItems : Nat → List Token → Option (List Node × List Token)
  | 0, _ => none
  | fuel + 1, tokens =>
      match tokens with
      | .closeFlow .sequence :: rest => some ([], rest)
      | _ => do
          let (item, rest) ←
            match tokens with
            | .key :: rest => do
                let (entry, rest) ← flowEntry fuel .sequence rest
                some (.mapping none [entry], rest)
            | _ => read fuel false false tokens
          let (items, rest) ← flowItems fuel (← nextMember? .sequence rest)
          some (item :: items, rest)

/-- Reads the entries of a flow, to its end. What has no key stands for one without a value. -/
def flowEntries : Nat → List Token → Option (List (Node × Node) × List Token)
  | 0, _ => none
  | fuel + 1, tokens =>
      match tokens with
      | .closeFlow .mapping :: rest => some ([], rest)
      | _ => do
          let (entry, rest) ←
            match tokens with
            | .key :: rest => flowEntry fuel .mapping rest
            | _ => do
                let (key, rest) ← read fuel false false tokens
                some ((key, empty), rest)
          let (entries, rest) ← flowEntries fuel (← nextMember? .mapping rest)
          some (entry :: entries, rest)

/-- Reads an entry of a flow. -/
def flowEntry : Nat → Collection → List Token → Option ((Node × Node) × List Token)
  | 0, _, _ => none
  | fuel + 1, kind, tokens => do
      let (key, rest) ← flowValue fuel kind tokens
      let (value, rest) ←
        match rest with
        | .value :: rest => flowValue fuel kind rest
        | _ => some (empty, rest)
      some ((key, value), rest)

/-- Reads a key or a value of a flow, which can be empty. -/
def flowValue : Nat → Collection → List Token → Option (Node × List Token)
  | 0, _, _ => none
  | fuel + 1, kind, tokens =>
      if endsMember kind tokens then some (empty, tokens) else read fuel false false tokens

end

/-- Reads the directives before a document, of which the version and each handle come at most once:
the handles with their meanings. -/
def directives? (versioned : Bool) (handles : List (String × String)) :
    List Token → Option (List (String × String) × List Token)
  | .directive .version :: rest => if versioned then none else directives? true handles rest
  | .directive (.handle name meaning) :: rest =>
      if (handles.lookup name).isSome then none
      else directives? versioned ((name, meaning) :: handles) rest
  | rest => some (handles, rest)

/-- Is a document over before a token? -/
def endsDocument : List Token → Bool
  | [] => true
  | .directive _ :: _ => true
  | .documentStart :: _ => true
  | .documentEnd :: _ => true
  | _ => false

/-- The largest depth to which collections are nested in tokens, of which `depth` are open. -/
def nesting (depth : Nat) : List Token → Nat
  | [] => depth
  | .openBlock _ :: rest => nesting (depth + 1) rest
  | .openFlow _ :: rest => nesting (depth + 1) rest
  | .closeBlock :: rest => max depth (nesting (depth - 1) rest)
  | .closeFlow _ :: rest => max depth (nesting (depth - 1) rest)
  | _ :: rest => nesting depth rest

/-- The depth beyond which nothing is read. -/
def deepest : Nat :=
  128

/-- The node of a document. Directives can stand before it with a mark behind them. -/
def ofTokens? (tokens : List Token) : Option Node := do
  guard (nesting 0 tokens ≤ deepest)
  let fuel := 4 * (tokens.length + 1)
  let (handles, content) ← directives? false [] tokens
  let handles := handles ++ Tag.standardHandles
  let (node, rest) ←
    match content with
    | .documentStart :: content =>
        if endsDocument content then some (empty, content)
        else read handles fuel true false content
    | _ =>
        if content.length < tokens.length then none
        else read handles fuel true false content
  if rest.all (· = .documentEnd) then some node else none

mutual

/-- A node and all nodes in it, in the order of the document. -/
def all (node : Node) : List Node :=
  node ::
    match node with
    | .sequence _ items => allOfItems items
    | .mapping _ entries => allOfEntries entries
    | _ => []

/-- All nodes in items. -/
def allOfItems : List Node → List Node
  | [] => []
  | item :: rest => all item ++ allOfItems rest

/-- All nodes in entries. -/
def allOfEntries : List (Node × Node) → List Node
  | [] => []
  | (key, value) :: rest => all key ++ all value ++ allOfEntries rest

end

/-- The anchor of a node. -/
def anchor? : Node → Option Nat
  | .reference _ => none
  | .scalar anchor _ _ _ => anchor
  | .sequence anchor _ => anchor
  | .mapping anchor _ => anchor

/-- Is a node a sequence or a mapping? -/
def isCollection : Node → Bool
  | .sequence _ _ => true
  | .mapping _ _ => true
  | _ => false

/-- The nodes with an anchor by its number. Of those with the same number the last one counts, which
comes first here. -/
def anchored (node : Node) : List (Nat × Node) :=
  (node.all.filterMap fun node => node.anchor?.map (·, node)).reverse

/-- The number of events in a document: a collection has a beginning and an end. -/
def events (node : Node) : Nat :=
  node.all.length + (node.all.filter isCollection).length

end Node

end WattPlan.Yaml
