/-!
# Quantities as text

`Numeral` lists the written forms of a quantity: in messages, in documents, in the closing line of
a report, and with a set number of places; and how a quantity is read from a document or from a
command line.
-/

namespace WattPlan

/-- The written forms of a quantity. -/
class Numeral (α : Type) where
  /-- All places written out, no point after a whole number. -/
  message : α → String
  /-- As a document holds it. -/
  document : α → String
  /-- As a report closes with it. -/
  report : α → String
  /-- With a set number of decimal places. -/
  fixed : Nat → α → String
  /-- Reads an unquoted number of a document. -/
  ofDocument? : String → Option α
  /-- Reads a word of a command line. -/
  ofWord? : String → Option α

end WattPlan
