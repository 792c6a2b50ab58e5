import WattPlan.Yaml.Style

/-!
# Writing documents

`Yaml.render` writes a tree as a document. Every entry of a mapping and every item of a sequence
begins a line. What belongs to a key or a dash is indented by two columns, but for a sequence under
a key, whose dashes stand right below the key.
-/

namespace WattPlan.Yaml

open Decimal

/-- A line with a newline behind it. -/
def Line.ofChars (content : List Char) : Line :=
  ⟨content, ['\n']⟩

/-- Puts characters in front of the first line. -/
def prepend (chars : List Char) : List Line → List Line
  | [] => [Line.ofChars chars]
  | line :: rest => { line with content := chars ++ line.content } :: rest

/-- A hexadecimal digit. -/
def hexDigit (n : Nat) : Char :=
  if n < 10 then Char.ofNat (n + 0x30) else Char.ofNat (n - 10 + 0x41)

/-- The last hexadecimal digits of a number. -/
def hexDigits : Nat → Nat → List Char
  | 0, _ => []
  | width + 1, n => hexDigits width (n / 16) ++ [hexDigit (n % 16)]

/-- The letter that stands for a character after a backslash. -/
def escapeLetter? (c : Char) : Option Char :=
  match c.toNat with
  | 0x00 => some '0'
  | 0x07 => some 'a'
  | 0x08 => some 'b'
  | 0x09 => some 't'
  | 0x0A => some 'n'
  | 0x0B => some 'v'
  | 0x0C => some 'f'
  | 0x0D => some 'r'
  | 0x1B => some 'e'
  | 0x22 => some '"'
  | 0x5C => some '\\'
  | 0x85 => some 'N'
  | 0xA0 => some '_'
  | 0x2028 => some 'L'
  | 0x2029 => some 'P'
  | _ => none

/-- A character within double quotes. -/
def doubleChar (c : Char) : List Char :=
  let n := c.toNat
  if isPrintable c ∧ !isBreak c ∧ c ≠ '"' ∧ c ≠ '\\' then [c]
  else
    match escapeLetter? c with
    | some letter => ['\\', letter]
    | none =>
        if n ≤ 0xFF then '\\' :: 'x' :: hexDigits 2 n
        else if n ≤ 0xFFFF then '\\' :: 'u' :: hexDigits 4 n
        else '\\' :: 'U' :: hexDigits 8 n

/-- A character within single quotes. -/
def singleChar (c : Char) : List Char :=
  if c = '\'' then ['\'', '\''] else [c]

/-- The head of a block of lines. It states the indentation where the text begins with a blank, and
whether the text ends with no newline, with one or with more. -/
def blockHead (chars : List Char) : List Char :=
  let width := if chars.head?.any fun c => isSpace c || isBreak c then ['2'] else []
  let ending :=
    match chars.reverse with
    | [] => ['-']
    | [last] => if isBreak last then ['+'] else ['-']
    | last :: before :: _ =>
        if !isBreak last then ['-'] else if isBreak before then ['+'] else []
  '|' :: width ++ ending

/-- The lines of text with a newline behind the last one. -/
def closedLines (chars : List Char) : List Line :=
  (Line.ofText chars).map fun line =>
    if line.ending.isEmpty then Line.ofChars line.content else line

/-- Indents all lines but the first. -/
def hang (lines : List Line) : List Line :=
  match lines with
  | [] => []
  | first :: rest => first :: rest.map (Line.indent 2)

/-- The lines of a text. -/
def textLines (α : Type) [Numeral α] (text : String) : List Line :=
  let chars := text.toList
  match styleOf α false text with
  | .plain => [Line.ofChars chars]
  | .single => hang (closedLines ('\'' :: chars.flatMap singleChar ++ ['\'']))
  | .double => [Line.ofChars ('"' :: chars.flatMap doubleChar ++ ['"'])]
  | .block => hang (Line.ofChars (blockHead chars) :: closedLines chars)

/-- A key of a mapping. -/
def keyChars (α : Type) [Numeral α] (key : String) : List Char :=
  let chars := key.toList
  match styleOf α true key with
  | .plain => chars
  | .single => '\'' :: chars.flatMap singleChar ++ ['\'']
  | _ => '"' :: chars.flatMap doubleChar ++ ['"']

mutual

/-- The lines of a tree that stands for itself or behind a dash. -/
def lines {α : Type} [Numeral α] : Tree α → List Line
  | .plain written => [Line.ofChars written.toList]
  | .tagged _ content => [Line.ofChars content.toList]
  | .text content => textLines α content
  | .whole n => [Line.ofChars (digitChars n)]
  | .quantity x => [Line.ofChars (Numeral.document x).toList]
  | .sequence items => if items.isEmpty then [Line.ofChars ['[', ']']] else itemLines items
  | .mapping entries =>
      if entries.isEmpty then [Line.ofChars ['\x7b', '\x7d']] else entryLines entries

/-- The lines of the items of a sequence. -/
def itemLines {α : Type} [Numeral α] : List (Tree α) → List Line
  | [] => []
  | item :: rest =>
      let own :=
        match item with
        | .sequence _ => hang (lines item)
        | .mapping _ => hang (lines item)
        | _ => lines item
      prepend ['-', ' '] own ++ itemLines rest

/-- The lines of the entries of a mapping. -/
def entryLines {α : Type} [Numeral α] : List (String × Tree α) → List Line
  | [] => []
  | (key, value) :: rest =>
      let head := keyChars α key ++ [':']
      let own :=
        match value with
        | .sequence items =>
            if items.isEmpty then prepend (head ++ [' ']) (lines value)
            else Line.ofChars head :: lines value
        | .mapping entries =>
            if entries.isEmpty then prepend (head ++ [' ']) (lines value)
            else Line.ofChars head :: (lines value).map (Line.indent 2)
        | _ => prepend (head ++ [' ']) (lines value)
      own ++ entryLines rest

end

/-- The document of a tree. -/
def render {α : Type} [Numeral α] (tree : Tree α) : String :=
  String.ofList (Line.toText (lines tree))

end WattPlan.Yaml
