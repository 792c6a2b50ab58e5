import WattPlan.Yaml.Line
import WattPlan.Yaml.Tree

/-!
# How texts are written

A text is written plain where it reads back as the same text. Otherwise it is put into single
quotes, or into double quotes with escapes where single quotes cannot hold it. A text of several
lines is written as a block where that keeps every space.
-/

namespace WattPlan.Yaml

open Decimal

/-- The ways to write a text. -/
inductive Style where
  | plain
  | single
  | double
  | block
deriving DecidableEq, Repr

/-- Can a character stand in a text as it is? -/
def isPrintable (c : Char) : Bool :=
  let n := c.toNat
  n = 0x0A || (0x20 ≤ n && n ≤ 0x7E) || (0xA0 ≤ n && n ≤ 0xFFFD && n ≠ 0xFEFF) || 0x10000 ≤ n

/-- Is there a character of the first kind with one of the second kind right behind it? -/
def hasPair (first second : Char → Bool) : List Char → Bool
  | c :: d :: rest => (first c && second d) || hasPair first second (d :: rest)
  | _ => false

/-- Is a character a space? -/
def isSpace (c : Char) : Bool :=
  c = ' '

/-- Do characters begin with one that has a meaning of its own there? -/
def beginsWithMark : List Char → Bool
  | [] => false
  | c :: rest =>
      if c = '-' ∨ c = '?' ∨ c = ':' then startsBlank rest
      else c = '#' || c = ',' || c = '[' || c = ']' || c = '\x7b' || c = '\x7d' || c = '&' ||
        c = '*' || c = '!' || c = '|' || c = '>' || c = '\'' || c = '"' || c = '%' || c = '@' ||
        c.toNat = 0x60

/-- Is there a colon before a blank, or a comment sign after one? -/
def holdsMark : List Char → Bool
  | [] => false
  | c :: rest =>
      (c = ':' && startsBlank rest) || (startsBlank [c] && rest.head? = some '#') || holdsMark rest

/-- Does a text begin like the bounds of a document? -/
def beginsLikeBounds (chars : List Char) : Bool :=
  chars.take 3 = ['-', '-', '-'] || chars.take 3 = ['.', '.', '.']

/-- Is there something that only double quotes keep: a space before a line break, or a character
that no document holds as it is? -/
def needsEscapes (chars : List Char) : Bool :=
  hasPair isSpace isBreak chars || !chars.all isPrintable

/-- Can a text be written without quotes and read back as one scalar of a block? -/
def allowsPlain (chars : List Char) : Bool :=
  !(chars.head?.any isSpace || chars.getLast?.any isSpace || chars.any isBreak ||
    needsEscapes chars || beginsLikeBounds chars || beginsWithMark chars || holdsMark chars)

/-- Can a text be written in single quotes? -/
def allowsSingle (chars : List Char) : Bool :=
  !(needsEscapes chars || hasPair isBreak isSpace chars)

/-- Can a text be written as a block of lines? -/
def allowsBlock (chars : List Char) : Bool :=
  !(needsEscapes chars || chars.getLast?.any isSpace)

/-- The words that stand for a truth value. -/
def isTruthWord (word : String) : Bool :=
  ["true", "True", "TRUE", "false", "False", "FALSE"].contains word

/-- Is a word a whole number of 128 bits after a mark for its base? -/
def isBasedNumber (word : String) : Bool :=
  let (negative, unsigned) := splitSign word.toList
  let (base, digits) := Tree.splitBase unsigned
  base ≠ 10 &&
    (readNat? base digits).any fun n => if negative then n ≤ Nat.pow 2 127 else n < Nat.pow 2 128

/-- Does an unquoted word stand for something else than a text? -/
def isAmbiguous (α : Type) [Numeral α] (word : String) : Bool :=
  Tree.isNullWord word || isTruthWord word || isBasedNumber word ||
    (Numeral.ofDocument? (α := α) word).isSome || Tree.hasLeadingZero word.toList

/-- The style of a text, which is of one line where `inline` holds. -/
def styleOf (α : Type) [Numeral α] (inline : Bool) (text : String) : Style :=
  let chars := text.toList
  if chars.contains '\n' then if !inline && allowsBlock chars then .block else .double
  else if !isAmbiguous α text && allowsPlain chars then .plain
  else if allowsSingle chars && !(inline && chars.any isBreak) then .single
  else .double

end WattPlan.Yaml
