import WattPlan.Yaml.Block

/-!
# Names, tags and directives

Nodes of a document can be named by anchors and have tags. A tag is written with a handle, which
stands for the beginning of the tag; a directive before the document can give a handle its meaning.
-/

namespace WattPlan.Yaml

/-- Is a character a letter, a digit, a hyphen or an underscore? -/
def isWordChar (c : Char) : Bool :=
  c.isAlphanum || c = '-' || c = '_'

/-- A tag: a handle and what follows it. A tag that is written out has an empty handle. -/
structure Tag where
  handle : String
  suffix : String
deriving DecidableEq, Repr

/-- May a character stand in a tag? Only a wide one holds commas and brackets. -/
def isTagChar (wide : Bool) (c : Char) : Bool :=
  isWordChar c ||
    [';', '/', '?', ':', '@', '&', '=', '+', '$', '.', '%', '!', '~', '*', '\'', '(', ')'].contains
      c ||
    (wide && (c = ',' || c = '[' || c = ']'))

/-- The number of octets of a character behind its first one. -/
def octetsBehind? (octet : Nat) : Option Nat :=
  if octet < 0x80 then some 0
  else if octet < 0xC0 then none
  else if octet < 0xE0 then some 1
  else if octet < 0xF0 then some 2
  else if octet < 0xF8 then some 3
  else none

/-- Reads the octets that are written as two hexadecimal digits behind a percent sign. `due` octets
of a character are still to come. -/
def decodeOctets? : Nat → List Char → Option (List Char)
  | 0, [] => some []
  | _ + 1, [] => none
  | due, '%' :: high :: low :: rest => do
      let octet ← Decimal.readNat? 16 [high, low]
      let due ←
        match due with
        | 0 => octetsBehind? octet
        | due + 1 => if 0x80 ≤ octet ∧ octet < 0xC0 then some due else none
      (decodeOctets? due rest).map (Char.ofNat octet :: ·)
  | 0, c :: rest => if c = '%' then none else (decodeOctets? 0 rest).map (c :: ·)
  | _ + 1, _ :: _ => none

/-- The characters of a tag at the head of a text, and how many were written for them. -/
def tagChars? (wide : Bool) (chars : List Char) : Option (List Char × Nat) :=
  let written := chars.takeWhile (isTagChar wide)
  (decodeOctets? 0 written).map (·, written.length)

namespace Tag

/-- The tag at the head of a text, and its length. -/
def read? : List Char → Option (Tag × Nat)
  | '!' :: '<' :: rest => do
      let (suffix, length) ← tagChars? true rest
      guard (length ≠ 0 ∧ (rest.drop length).head? = some '>')
      some (⟨"", String.ofList suffix⟩, length + 3)
  | '!' :: rest => do
      let word := rest.takeWhile isWordChar
      match rest.drop word.length with
      | '!' :: behind => do
          let (suffix, length) ← tagChars? false behind
          guard (length ≠ 0)
          some (⟨String.ofList ('!' :: word ++ ['!']), String.ofList suffix⟩,
            word.length + length + 2)
      | behind => do
          let (suffix, length) ← tagChars? false behind
          let suffix := word ++ suffix
          let tag : Tag := if suffix.isEmpty then ⟨"", "!"⟩ else ⟨"!", String.ofList suffix⟩
          some (tag, word.length + length + 1)
  | _ => none

/-- The handles that need no directive, with their meaning. -/
def standardHandles : List (String × String) :=
  [("!", "!"), ("!!", "tag:yaml.org,2002:")]

/-- The tag of a number that is not whole. -/
def float : String :=
  "tag:yaml.org,2002:float"

/-- The tag of a whole number. -/
def int : String :=
  "tag:yaml.org,2002:int"

/-- The tag of nothing. -/
def null : String :=
  "tag:yaml.org,2002:null"

/-- The tag in full. Its handle has to be known. -/
def resolve? (handles : List (String × String)) (tag : Tag) : Option String :=
  if tag.handle = "" then some tag.suffix
  else (handles.lookup tag.handle).map (· ++ tag.suffix)

end Tag

/-- A line that tells how to read the document below it: the version of the format, or the meaning
of a handle. -/
inductive Directive where
  | version
  | handle (name meaning : String)
deriving DecidableEq, Repr

namespace Directive

/-- A number of at most nine digits at the head of a text, and what follows it. -/
def number? (chars : List Char) : Option (Nat × List Char) := do
  let digits := chars.takeWhile Char.isDigit
  guard (digits.length ≤ 9)
  some (← Decimal.readNat? 10 digits, chars.drop digits.length)

/-- Reads a version, which has to be 1.1 or 1.2. -/
def version? (chars : List Char) : Option Directive := do
  let (major, rest) ← number? chars
  guard (rest.head? = some '.')
  let (minor, rest) ← number? (rest.drop 1)
  guard (major = 1 ∧ (minor = 1 ∨ minor = 2) ∧ isIdle rest)
  some .version

/-- Reads a handle and its meaning. -/
def handle? : List Char → Option Directive
  | '!' :: rest => do
      let word := rest.takeWhile isWordChar
      let behind := rest.drop word.length
      let closing := if behind.head? = some '!' then 1 else 0
      guard (closing = 1 ∨ word.isEmpty)
      let name := '!' :: rest.take (word.length + closing)
      let behind := behind.drop closing
      guard (behind.head?.any isBlank)
      let meaning := behind.dropWhile isBlank
      let (chars, length) ← tagChars? true meaning
      let rest := meaning.drop length
      guard (length ≠ 0 ∧ startsBlank rest ∧ isIdle rest)
      some (.handle (String.ofList name) (String.ofList chars))
  | _ => none

/-- The directive on a line, behind its percent sign. -/
def ofLine? (line : List Char) : Option Directive := do
  let name := line.takeWhile isWordChar
  let rest := line.drop name.length
  guard (startsBlank rest)
  let rest := rest.dropWhile isBlank
  if name = ['Y', 'A', 'M', 'L'] then version? rest
  else if name = ['T', 'A', 'G'] then handle? rest
  else none

end Directive

end WattPlan.Yaml
