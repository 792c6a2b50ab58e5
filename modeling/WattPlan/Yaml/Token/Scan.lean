import WattPlan.Yaml.Token

/-!
# From a text to its tokens

`Token.ofText?` goes through a text from token to token. That a key has begun is known only at the
colon behind it, so a place where one may begin is noted, and the tokens that announce the key are
put in there when the colon comes. A key lies on one line and is not longer than 1024 bytes.

Anchors are numbered in order. An anchor gets the count of the names before it as its number, and a
name that is given again has its number from the last time.
-/

namespace WattPlan.Yaml

/-- Where a key may have begun: the count of the tokens before, and whether what begins there has to
be a key. -/
structure KeyStart where
  position : Position
  count : Nat
  required : Bool
deriving DecidableEq, Repr

namespace KeyStart

/-- The number of bytes that a key is not longer than. -/
def longest : Nat :=
  1024

/-- Can a key that ends at a position not have begun here? It lies on one line. -/
def isOver (start : KeyStart) (position : Position) : Bool :=
  start.position.line < position.line || start.position.offset + longest < position.offset

/-- The start that is left at a further position. -/
def forward? (position : Position) : Option KeyStart → Option (Option KeyStart)
  | none => some none
  | some start =>
      if !start.isOver position then some (some start)
      else if start.required then none
      else some none

end KeyStart

/-- A text on the way to its tokens.

* `tokens` are those before the cursor, the last one first, and `count` is their number.
* `columns` are those of the open blocks, the innermost first.
* `fresh` says that a key may begin at the cursor.
* `start` is where a key may have begun in the innermost collection of a flow or, outside of one, in
  the block; `outer` are those of the collections around it.
* `anchors` are the numbers of the names so far. -/
structure Scan where
  cursor : Cursor
  tokens : List Token
  count : Nat
  columns : List Nat
  fresh : Bool
  start : Option KeyStart
  outer : List (Option KeyStart)
  anchors : List (String × Nat)

namespace Scan

/-- Before a text. -/
def ofText (chars : List Char) : Scan where
  cursor := ⟨Position.start, chars⟩
  tokens := []
  count := 0
  columns := []
  fresh := true
  start := none
  outer := []
  anchors := []

/-- Is the cursor in a flow? -/
def inFlow (scan : Scan) : Bool :=
  !scan.outer.isEmpty

/-- The least column of what belongs to the innermost block. -/
def least (scan : Scan) : Nat :=
  match scan.columns with
  | [] => 0
  | column :: _ => column + 1

/-- Adds a token, and moves the cursor. -/
def emit (scan : Scan) (token : Token) (cursor : Cursor) : Scan :=
  { scan with tokens := token :: scan.tokens, count := scan.count + 1, cursor }

/-- Adds tokens, the last one first, behind the first `count` ones. -/
def insert (scan : Scan) (count : Nat) (tokens : List Token) : Scan :=
  let since := scan.count - count
  { scan with
    tokens := scan.tokens.take since ++ tokens ++ scan.tokens.drop since
    count := scan.count + tokens.length }

/-- Gives up the start of a key, unless it has to be one. -/
def dropStart (scan : Scan) : Option Scan :=
  if scan.start.any KeyStart.required then none else some { scan with start := none }

/-- Notes that a key may begin here. At the column of the innermost block it has to. -/
def noteStart (scan : Scan) : Option Scan :=
  if scan.fresh then do
    let scan ← scan.dropStart
    let required := !scan.inFlow && scan.columns.head? = some scan.cursor.column
    some { scan with start := some ⟨scan.cursor.toPosition, scan.count, required⟩ }
  else some scan

/-- Closes the innermost blocks; a flow keeps them open. -/
def close (scan : Scan) (number : Nat) : Scan :=
  if scan.inFlow then scan
  else
    { scan with
      tokens := List.replicate number .closeBlock ++ scan.tokens
      count := scan.count + number
      columns := scan.columns.drop number }

/-- Closes the blocks right of a column. -/
def closeBlocks (scan : Scan) (column : Nat) : Scan :=
  scan.close (scan.columns.takeWhile (column < ·)).length

/-- Closes all blocks. -/
def closeAllBlocks (scan : Scan) : Scan :=
  scan.close scan.columns.length

/-- Opens a block at a column behind the first `count` tokens, if none is open there. -/
def openBlock (scan : Scan) (column count : Nat) (kind : Collection) : Scan :=
  if scan.inFlow ∨ column < scan.least then scan
  else { scan.insert count [.openBlock kind] with columns := column :: scan.columns }

/-- Moves to the next token: the starts of keys that are over are given up, and the blocks that end
before the token are closed. -/
def approach (scan : Scan) : Option Scan := do
  let (cursor, fresh) := scan.cursor.token scan.inFlow scan.fresh
  let start ← KeyStart.forward? cursor.toPosition scan.start
  let outer ← scan.outer.mapM (KeyStart.forward? cursor.toPosition)
  some ({ scan with cursor, fresh, start, outer }.closeBlocks cursor.column)

/-- Reads a directive, which ends with its line. -/
def directive? (scan : Scan) (rest : List Char) : Option Scan := do
  let line := rest.takeWhile fun c => !isBreak c
  let directive ← Directive.ofLine? line
  let scan ← scan.closeAllBlocks.dropStart
  some { scan.emit (.directive directive) (scan.cursor.skip (line.length + 2)) with fresh := false }

/-- Reads one of the bounds of a document. -/
def bounds? (scan : Scan) (token : Token) : Option Scan := do
  let scan ← scan.closeAllBlocks.dropStart
  some { scan.emit token (scan.cursor.skip 3) with fresh := false }

/-- Enters a collection of a flow. -/
def enter? (scan : Scan) (kind : Collection) : Option Scan := do
  let scan ← scan.noteStart
  some { scan.emit (.openFlow kind) (scan.cursor.skip 1) with
    start := none, outer := scan.start :: scan.outer, fresh := true }

/-- Leaves a collection of a flow. -/
def leave? (scan : Scan) (kind : Collection) : Option Scan :=
  match scan.outer with
  | [] => none
  | start :: outer =>
      some { scan.emit (.closeFlow kind) (scan.cursor.skip 1) with start, outer, fresh := false }

/-- Reads the comma between two members of a flow. -/
def comma? (scan : Scan) : Option Scan := do
  let scan ← scan.dropStart
  some { scan.emit .comma (scan.cursor.skip 1) with fresh := true }

/-- Reads the dash before an item of a block. -/
def dash? (scan : Scan) : Option Scan := do
  guard (scan.fresh ∧ !scan.inFlow)
  let scan ← (scan.openBlock scan.cursor.column scan.count .sequence).dropStart
  some { scan.emit .dash (scan.cursor.skip 1) with fresh := true }

/-- Reads the question mark before a key of any kind. -/
def question? (scan : Scan) : Option Scan := do
  guard (scan.fresh ∨ scan.inFlow)
  let scan ← (scan.openBlock scan.cursor.column scan.count .mapping).dropStart
  some { scan.emit .key (scan.cursor.skip 1) with fresh := !scan.inFlow }

/-- Reads the colon before a value. Where a key may have begun, one did. -/
def colon? (scan : Scan) : Option Scan :=
  match scan.start with
  | some start =>
      let keyed := (scan.insert start.count [.key]).openBlock start.position.column start.count
        .mapping
      some { keyed.emit .value (scan.cursor.skip 1) with start := none, fresh := false }
  | none =>
      if scan.fresh ∨ scan.inFlow then
        let opened := scan.openBlock scan.cursor.column scan.count .mapping
        some { opened.emit .value (scan.cursor.skip 1) with fresh := !scan.inFlow }
      else none

/-- The characters that can stand behind a name. -/
def endsName : List Char → Bool
  | [] => true
  | c :: _ =>
      isBlank c || isBreak c || c = '?' || c = ':' || c = ',' || c = ']' || c = '\x7d' ||
        c = '%' || c = '@' || c.toNat = 0x60

/-- The name behind the sign of an anchor or a reference. -/
def name? (rest : List Char) : Option String := do
  let word := rest.takeWhile isWordChar
  guard (!word.isEmpty ∧ endsName (rest.drop word.length))
  some (String.ofList word)

/-- Reads an anchor. -/
def anchor? (scan : Scan) (rest : List Char) : Option Scan := do
  let name ← name? rest
  let scan ← scan.noteStart
  let id := scan.anchors.length
  let others := scan.anchors.filter fun known => known.1 ≠ name
  some { scan.emit (.anchor id) (scan.cursor.skip (name.length + 1)) with
    anchors := (name, id) :: others, fresh := false }

/-- Reads a reference to an anchor before it. -/
def reference? (scan : Scan) (rest : List Char) : Option Scan := do
  let name ← name? rest
  let id ← scan.anchors.lookup name
  let scan ← scan.noteStart
  some { scan.emit (.reference id) (scan.cursor.skip (name.length + 1)) with fresh := false }

/-- Reads a tag. -/
def tag? (scan : Scan) : Option Scan := do
  let (tag, length) ← Tag.read? scan.cursor.rest
  let scan ← scan.noteStart
  let cursor := scan.cursor.skip length
  guard (startsBlank cursor.rest ∨ (scan.inFlow ∧ cursor.rest.head? = some ','))
  some { scan.emit (.tag tag) cursor with fresh := false }

/-- Reads a scalar that is a block of lines. -/
def lines? (scan : Scan) : Option Scan := do
  let scan ← scan.dropStart
  let (form, content, cursor) ← block? scan.least scan.cursor
  some { scan.emit (.scalar form content) cursor with fresh := true }

/-- Reads a scalar in quotes. -/
def quotes? (scan : Scan) : Option Scan := do
  let scan ← scan.noteStart
  let (content, cursor) ← quoted? scan.cursor
  some { scan.emit (.scalar .quoted content) cursor with fresh := false }

/-- Reads a plain scalar. A key may begin behind it if it ends with a line. -/
def word? (scan : Scan) : Option Scan := do
  let scan ← scan.noteStart
  let ⟨content, broken, cursor⟩ ← plain? scan.inFlow scan.least scan.cursor
  some { scan.emit (.scalar .plain content) cursor with fresh := broken }

/-- Reads the token that begins with a character. -/
def read? (scan : Scan) (c : Char) (rest : List Char) : Option Scan :=
  let alone := scan.inFlow || startsBlank rest
  if c = '%' ∧ scan.cursor.column = 0 then scan.directive? rest
  else if scan.cursor.atMark '-' then scan.bounds? .documentStart
  else if scan.cursor.atMark '.' then scan.bounds? .documentEnd
  else if c = '[' then scan.enter? .sequence
  else if c = '\x7b' then scan.enter? .mapping
  else if c = ']' then scan.leave? .sequence
  else if c = '\x7d' then scan.leave? .mapping
  else if c = ',' then scan.comma?
  else if c = '-' ∧ startsBlank rest then scan.dash?
  else if c = '?' ∧ alone then scan.question?
  else if c = ':' ∧ alone then scan.colon?
  else if c = '*' then scan.reference? rest
  else if c = '&' then scan.anchor? rest
  else if c = '!' then scan.tag?
  else if (c = '|' ∨ c = '>') ∧ !scan.inFlow then scan.lines?
  else if c = '\'' ∨ c = '"' then scan.quotes?
  else if startsPlain c then scan.word?
  else none

/-- Reads on to the end of the text. A step is taken for each token. -/
def run : Nat → Scan → Option (List Token)
  | 0, _ => none
  | fuel + 1, scan => do
      let scan ← scan.approach
      match scan.cursor.rest with
      | [] => do
          let scan ← scan.closeAllBlocks.dropStart
          some scan.tokens.reverse
      | c :: rest => run fuel (← scan.read? c rest)

end Scan

/-- The tokens of a text. -/
def Token.ofText? (chars : List Char) : Option (List Token) :=
  (Scan.ofText chars).run (chars.length + 1)

end WattPlan.Yaml
