import WattPlan.Yaml.Line

/-!
# Places in a document text

A position counts the lines before a place of a text, the characters before it on its line and all
the bytes before it. A cursor is a position with what is left of the text there.
-/

namespace WattPlan.Yaml

/-- Where a place of a text is. -/
structure Position where
  offset : Nat
  line : Nat
  column : Nat
deriving DecidableEq, Repr

namespace Position

/-- Before the first character. -/
def start : Position :=
  ⟨0, 0, 0⟩

/-- Behind a character. -/
def past (position : Position) (c : Char) : Position :=
  { offset := position.offset + c.utf8Size
    line := if isBreak c then position.line + 1 else position.line
    column := if isBreak c then 0 else position.column + 1 }

end Position

/-- A place in a text, with the characters from there on. -/
structure Cursor extends Position where
  rest : List Char

/-- May a text hold a character? -/
def isAllowed (c : Char) : Bool :=
  let n := c.toNat
  n = 0x09 || n = 0x0A || (0x20 ≤ n && n ≤ 0x7E) || (0xA0 ≤ n && n ≤ 0xFFFD) || 0x10000 ≤ n

/-- The text with one kind of line break. -/
def unifyBreaks : List Char → List Char
  | '\r' :: '\n' :: rest => '\n' :: unifyBreaks rest
  | c :: rest => (if c = '\r' ∨ c.toNat = 0x85 then '\n' else c) :: unifyBreaks rest
  | [] => []

namespace Cursor

/-- The place some characters further. -/
def skip (cursor : Cursor) (count : Nat) : Cursor :=
  ⟨(cursor.rest.take count).foldl Position.past cursor.toPosition, cursor.rest.drop count⟩

/-- Do the characters from here on begin with a row of three that marks the bounds of a document? -/
def atMark (cursor : Cursor) (mark : Char) : Bool :=
  cursor.column = 0 && cursor.rest.take 3 = [mark, mark, mark] && startsBlank (cursor.rest.drop 3)

/-- Is here one of the bounds of a document? -/
def atBounds (cursor : Cursor) : Bool :=
  cursor.atMark '-' || cursor.atMark '.'

/-- The place of the next token, after blanks, line breaks and comments, and whether a key may begin
there, which it may at the first token of a line of a block. A tab is passed over only in a flow and
where no key may begin; it is no indentation. A byte order mark may stand at the head of a line. -/
def tokenFrom (flow : Bool) : Bool → Bool → Position → List Char → Cursor × Bool
  | _, fresh, position, [] => (⟨position, []⟩, fresh)
  | comment, fresh, position, c :: rest =>
      let isPassed := comment || c = ' ' || (c = '\t' && (flow || !fresh)) ||
        (c.toNat = 0xFEFF && position.column = 0)
      if isBreak c then tokenFrom flow false (fresh || !flow) (position.past c) rest
      else if isPassed then tokenFrom flow comment fresh (position.past c) rest
      else if c = '#' then tokenFrom flow true fresh (position.past c) rest
      else (⟨position, c :: rest⟩, fresh)

/-- The place of the next token, and whether a key may begin there. -/
def token (cursor : Cursor) (flow fresh : Bool) : Cursor × Bool :=
  tokenFrom flow false fresh cursor.toPosition cursor.rest

end Cursor

end WattPlan.Yaml
