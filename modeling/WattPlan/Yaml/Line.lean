/-!
# Lines of a document text

A line is what stands before a line break, together with the break. The last line of a text can lack
one.
-/

namespace WattPlan.Yaml

/-- Is a character a space or a tab? -/
def isBlank (c : Char) : Bool :=
  c = ' ' || c = '\t'

/-- Does a character end a line? The other spellings of a line break are read as one of these. -/
def isBreak (c : Char) : Bool :=
  c = '\n' || c.toNat = 0x2028 || c.toNat = 0x2029

/-- Do characters begin with a blank or a line break, or is there none? -/
def startsBlank : List Char → Bool
  | [] => true
  | c :: _ => isBlank c || isBreak c

/-- A line and the line break after it, or nothing after it. -/
structure Line where
  content : List Char
  ending : List Char

namespace Line

/-- The lines of a text. -/
def ofText : List Char → List Line
  | [] => []
  | c :: rest =>
      if isBreak c then ⟨[], [c]⟩ :: ofText rest
      else
        match ofText rest with
        | [] => [⟨[c], []⟩]
        | line :: lines => ⟨c :: line.content, line.ending⟩ :: lines

/-- The text of lines. -/
def toText (lines : List Line) : List Char :=
  (lines.map fun line => line.content ++ line.ending).flatten

/-- A line further to the right. A line without content stays as it is. -/
def indent (width : Nat) (line : Line) : Line :=
  if line.content.isEmpty then line
  else { line with content := List.replicate width ' ' ++ line.content }

end Line

end WattPlan.Yaml
