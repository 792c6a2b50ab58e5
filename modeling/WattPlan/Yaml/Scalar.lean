import WattPlan.Decimal
import WattPlan.Yaml.Cursor

/-!
# Scalars on a line of a document text

A scalar is plain or in quotes. Where it goes on behind a line break, the break with the blanks
around it is folded: one newline is read as a space, and of several all but the first are kept.
-/

namespace WattPlan.Yaml

/-- The forms of a scalar. -/
inductive Form where
  | plain
  | quoted
  | literal
  | folded
deriving DecidableEq, Repr

/-- What stands between two pieces of a scalar, the last character first: blanks, or a line break,
which is none if it was escaped, and the breaks after it. -/
inductive Gap where
  | blanks (chars : List Char)
  | breaks (first : Option Char) (more : List Char)

namespace Gap

/-- Is there a line break? -/
def isBroken : Gap → Bool
  | blanks _ => false
  | breaks _ _ => true

/-- Is there nothing in the gap? -/
def isEmpty : Gap → Bool
  | blanks chars => chars.isEmpty
  | breaks _ _ => false

/-- What is read between two pieces, the last character first. A newline at the head is given up. -/
def chars : Gap → List Char
  | blanks chars => chars
  | breaks none more => more
  | breaks (some first) more =>
      if first ≠ '\n' then more ++ [first] else if more.isEmpty then [' '] else more

end Gap

/-- A scalar while it is read: its characters so far, the last one first, and the gap after them. -/
structure Gathered where
  text : List Char
  gap : Gap

namespace Gathered

/-- Nothing read yet. -/
def none : Gathered :=
  ⟨[], .blanks []⟩

/-- Adds a blank, which counts only on the line of the last character. -/
def blank (gathered : Gathered) (c : Char) : Gathered :=
  match gathered.gap with
  | .blanks chars => { gathered with gap := .blanks (c :: chars) }
  | .breaks _ _ => gathered

/-- Adds a line break. -/
def lineBreak (gathered : Gathered) (c : Char) : Gathered :=
  match gathered.gap with
  | .blanks _ => { gathered with gap := .breaks (some c) [] }
  | .breaks first more => { gathered with gap := .breaks first (c :: more) }

/-- Closes the gap. -/
def join (gathered : Gathered) : Gathered :=
  ⟨gathered.gap.chars ++ gathered.text, .blanks []⟩

/-- Adds a line break that is not to be read. The blanks before it stay. -/
def escapedBreak (gathered : Gathered) : Gathered :=
  { gathered.join with gap := .breaks .none [] }

/-- Adds a character. -/
def push (gathered : Gathered) (c : Char) : Gathered :=
  ⟨c :: gathered.join.text, .blanks []⟩

/-- The characters read, in order. -/
def content (gathered : Gathered) : String :=
  String.ofList gathered.text.reverse

end Gathered

/-- The characters that have a meaning of their own in a flow. -/
def isFlowMark (c : Char) : Bool :=
  c = ',' || c = '[' || c = ']' || c = '\x7b' || c = '\x7d'

/-- Can a plain scalar begin with a character that begins no other token? -/
def startsPlain (c : Char) : Bool :=
  !(isBlank c || isBreak c || isFlowMark c || c = '#' || c = '&' || c = '*' || c = '!' ||
    c = '|' || c = '>' || c = '\'' || c = '"' || c = '%' || c = '@' || c.toNat = 0x60)

/-- Does a plain scalar end at a place, given what was read before it? -/
def endsPlain (flow : Bool) (least : Nat) (gathered : Gathered) (cursor : Cursor) : Bool :=
  cursor.atBounds || (gathered.gap.isBroken && !flow && cursor.column < least) ||
    match cursor.rest with
    | [] => true
    | c :: rest =>
        (c = '#' && !gathered.gap.isEmpty) || (c = ':' && startsBlank rest) ||
          (flow && isFlowMark c)

/-- Does a colon stand in a flow where it can be neither text nor the end of a key? -/
def strayColon (flow : Bool) (c : Char) (rest : List Char) : Bool :=
  flow && c = ':' && rest.head?.any fun next => isFlowMark next || next = '?'

/-- A plain scalar as far as it was read. -/
structure PlainEnd where
  content : String
  broken : Bool
  cursor : Cursor

/-- Reads on in a plain scalar. In a block its lines begin at the column `least` or further on. -/
def plainFrom (flow : Bool) (least : Nat) (gathered : Gathered) (position : Position) :
    List Char → Option PlainEnd
  | [] => some ⟨gathered.content, gathered.gap.isBroken, ⟨position, []⟩⟩
  | c :: rest =>
      if isBreak c then plainFrom flow least (gathered.lineBreak c) (position.past c) rest
      else if isBlank c then
        if c = '\t' ∧ gathered.gap.isBroken ∧ position.column < least then none
        else plainFrom flow least (gathered.blank c) (position.past c) rest
      else if endsPlain flow least gathered ⟨position, c :: rest⟩ then
        some ⟨gathered.content, gathered.gap.isBroken, ⟨position, c :: rest⟩⟩
      else if strayColon flow c rest then none
      else plainFrom flow least (gathered.push c) (position.past c) rest

/-- Reads a plain scalar. -/
def plain? (flow : Bool) (least : Nat) (cursor : Cursor) : Option PlainEnd :=
  plainFrom flow least Gathered.none cursor.toPosition cursor.rest

/-- Reads on in a scalar in single quotes. -/
def singleFrom (gathered : Gathered) (position : Position) :
    List Char → Option (String × Cursor)
  | [] => none
  | '\'' :: '\'' :: rest =>
      singleFrom (gathered.push '\'') ((position.past '\'').past '\'') rest
  | '\'' :: rest => some (gathered.join.content, ⟨position.past '\'', rest⟩)
  | c :: rest =>
      if Cursor.atBounds ⟨position, c :: rest⟩ then none
      else if isBreak c then singleFrom (gathered.lineBreak c) (position.past c) rest
      else if isBlank c then singleFrom (gathered.blank c) (position.past c) rest
      else singleFrom (gathered.push c) (position.past c) rest

/-- What a letter stands for after a backslash. -/
def escaped? (c : Char) : Option Char :=
  match c with
  | '0' => some (Char.ofNat 0)
  | 'a' => some (Char.ofNat 7)
  | 'b' => some (Char.ofNat 8)
  | 't' => some '\t'
  | '\t' => some '\t'
  | 'n' => some '\n'
  | 'v' => some (Char.ofNat 11)
  | 'f' => some (Char.ofNat 12)
  | 'r' => some '\r'
  | 'e' => some (Char.ofNat 27)
  | ' ' => some ' '
  | '"' => some '"'
  | '/' => some '/'
  | '\\' => some '\\'
  | 'N' => some (Char.ofNat 0x85)
  | '_' => some (Char.ofNat 0xA0)
  | 'L' => some (Char.ofNat 0x2028)
  | 'P' => some (Char.ofNat 0x2029)
  | _ => none

/-- The number of hexadecimal digits after a backslash and a letter. -/
def escapeLength? (c : Char) : Option Nat :=
  match c with
  | 'x' => some 2
  | 'u' => some 4
  | 'U' => some 8
  | _ => none

/-- The character of a number in hexadecimal digits. -/
def hexChar? (digits : List Char) : Option Char :=
  ((Decimal.readNat? 16 digits).filter Nat.isValidChar).map Char.ofNat

/-- The character that an escape after a backslash stands for, and the length of the escape. -/
def escape? : List Char → Option (Char × Nat)
  | [] => none
  | c :: rest =>
      match escaped? c, escapeLength? c with
      | some char, _ => some (char, 1)
      | none, some length => do
          let digits := rest.take length
          guard (digits.length = length)
          some (← hexChar? digits, 1 + length)
      | none, none => none

/-- Reads on in a scalar in double quotes. -/
def doubleFrom : Nat → Gathered → Cursor → Option (String × Cursor)
  | 0, _, _ => none
  | fuel + 1, gathered, cursor =>
      match cursor.rest with
      | [] => none
      | '"' :: _ => some (gathered.join.content, cursor.skip 1)
      | c :: rest =>
          if cursor.atBounds then none
          else if c = '\\' then
            if rest.head?.any isBreak then doubleFrom fuel gathered.escapedBreak (cursor.skip 2)
            else do
              let (char, length) ← escape? rest
              doubleFrom fuel (gathered.push char) (cursor.skip (1 + length))
          else if isBreak c then doubleFrom fuel (gathered.lineBreak c) (cursor.skip 1)
          else if isBlank c then doubleFrom fuel (gathered.blank c) (cursor.skip 1)
          else doubleFrom fuel (gathered.push c) (cursor.skip 1)

/-- Reads a scalar in quotes. -/
def quoted? (cursor : Cursor) : Option (String × Cursor) :=
  match cursor.rest with
  | '\'' :: rest => singleFrom Gathered.none (cursor.toPosition.past '\'') rest
  | '"' :: rest => doubleFrom (rest.length + 1) Gathered.none (cursor.skip 1)
  | _ => none

end WattPlan.Yaml
