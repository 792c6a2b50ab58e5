import WattPlan.Yaml.Scalar

/-!
# Scalars that are blocks of lines

A block of lines is a scalar whose lines stand below a head. It is literal, and keeps its line
breaks, or folded: a newline between two lines that begin with no blank is given up. The column of
the lines is stated in the head or found at the first line with a text.
-/

namespace WattPlan.Yaml

/-- What happens to the line breaks at the end of a block of lines. -/
inductive Chomping where
  | strip
  | clip
  | keep
deriving DecidableEq, Repr

/-- The head of a block of lines: a stated indentation and the chomping. -/
structure BlockHead where
  width : Option Nat
  chomping : Chomping
deriving DecidableEq, Repr

/-- The chomping that a sign asks for. -/
def Chomping.ofSign? (c : Char) : Option Chomping :=
  if c = '-' then some .strip else if c = '+' then some .keep else none

/-- The indentation that a digit states. -/
def widthOfDigit? (c : Char) : Option Nat :=
  if '1' ≤ c ∧ c ≤ '9' then some (c.toNat - '0'.toNat) else none

/-- Reads a head behind its first sign: a sign and a digit in either order, each at most once. -/
def BlockHead.read (chars : List Char) : BlockHead × List Char :=
  match chars with
  | [] => (⟨none, .clip⟩, [])
  | c :: rest =>
      match Chomping.ofSign? c, widthOfDigit? c with
      | some chomping, _ =>
          match rest.head?.bind widthOfDigit? with
          | some width => (⟨some width, chomping⟩, rest.drop 1)
          | none => (⟨none, chomping⟩, rest)
      | none, some width =>
          match rest.head?.bind Chomping.ofSign? with
          | some chomping => (⟨some width, chomping⟩, rest.drop 1)
          | none => (⟨some width, .clip⟩, rest)
      | none, none => (⟨none, .clip⟩, chars)

/-- Is there nothing but blanks and a comment on a line? -/
def isIdle (chars : List Char) : Bool :=
  match chars.dropWhile isBlank with
  | [] => true
  | c :: _ => c = '#'

/-- A block of lines while it is read. All characters and breaks are kept with the last one first.

* `column` is the column of its lines, where it is known.
* `widest` is the longest run of spaces at the head of a line so far.
* `text` is what has been read, without the break after the last line.
* `ending` is that break, and `empty` are the breaks of the empty lines behind it.
* `shifted` says that the last line begins with a blank. -/
structure BlockText where
  folded : Bool
  chomping : Chomping
  least : Nat
  column : Option Nat
  widest : Nat
  text : List Char
  ending : List Char
  empty : List Char
  shifted : Bool

namespace BlockText

/-- Does a place lie before the lines of the block? -/
def isMargin (block : BlockText) (position : Position) : Bool :=
  block.column.all (position.column < ·)

/-- The block with its column known. -/
def settle (block : BlockText) (position : Position) : BlockText :=
  let widest := max block.widest position.column
  { block with
    widest
    column := some (block.column.getD (max (max widest block.least) 1)) }

/-- The block at the first character of a further line. -/
def openLine (block : BlockText) (c : Char) : BlockText :=
  let joins := block.folded && block.ending = ['\n'] && !block.shifted && !isBlank c
  let between :=
    if !joins then block.empty ++ block.ending
    else if block.empty.isEmpty then [' '] else block.empty
  { block with text := c :: between ++ block.text, ending := [], empty := [], shifted := isBlank c }

/-- The text of a block that is over. -/
def content (block : BlockText) : String :=
  let tail :=
    match block.chomping with
    | .strip => []
    | .clip => block.ending
    | .keep => block.empty ++ block.ending
  String.ofList (tail ++ block.text).reverse

mutual

/-- Reads on at the head of a line. -/
def marginFrom (block : BlockText) (position : Position) :
    List Char → Option (String × Cursor)
  | [] => some (block.content, ⟨position, []⟩)
  | c :: rest =>
      let margin := block.isMargin position
      if margin ∧ c = ' ' then marginFrom block (position.past c) rest
      else if margin ∧ c = '\t' then none
      else if isBreak c then
        let widest := max block.widest position.column
        marginFrom { block with widest, empty := c :: block.empty } (position.past c) rest
      else
        let settled := block.settle position
        if settled.column = some position.column then
          lineFrom (settled.openLine c) (position.past c) rest
        else some (block.content, ⟨position, c :: rest⟩)

/-- Reads on in a line. -/
def lineFrom (block : BlockText) (position : Position) : List Char → Option (String × Cursor)
  | [] => some (block.content, ⟨position, []⟩)
  | c :: rest =>
      if isBreak c then marginFrom { block with ending := [c] } (position.past c) rest
      else lineFrom { block with text := c :: block.text } (position.past c) rest

end

end BlockText

/-- Reads a block of lines. Where its head states no column, the lines begin at the column `least`
or further on. -/
def block? (least : Nat) (cursor : Cursor) : Option (Form × String × Cursor) :=
  match cursor.rest with
  | [] => none
  | sign :: rest => do
      let line := rest.takeWhile fun c => !isBreak c
      let (head, behind) := BlockHead.read line
      guard (isIdle behind)
      let block : BlockText :=
        { folded := sign = '>'
          chomping := head.chomping
          least
          column := head.width.map (least - 1 + ·)
          widest := 0
          text := []
          ending := []
          empty := []
          shifted := false }
      let below := cursor.skip (line.length + 2)
      let (content, after) ← block.marginFrom below.toPosition below.rest
      some (if sign = '>' then .folded else .literal, content, after)

end WattPlan.Yaml
