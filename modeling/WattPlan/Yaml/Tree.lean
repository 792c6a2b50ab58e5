import WattPlan.Decimal
import WattPlan.Numeral

/-!
# Document trees

A tree is what a document says, without its layout: scalars, sequences and mappings from keys to
trees. A scalar that was read without quotes keeps its text, since what it stands for depends on
what is asked of it; a tag tells more about it. A scalar that is to be written is a text, a whole
number or a quantity.

The readers of a tree (`text?`, `quantity?`, `natural?`, `items?`, `entries?`, `record?`) fail where
the tree has another shape. An unquoted scalar without text stands for an empty list, mapping or
record.
-/

namespace WattPlan

/-- What a tag says about a scalar: that an unquoted one stands for nothing or for something, or
that a block of lines is a quantity or a natural number. -/
inductive TagKind where
  | nothing
  | something
  | quantity
  | natural
deriving DecidableEq, Repr

/-- What a document says. -/
inductive Tree (α : Type) where
  | plain (written : String)
  | tagged (kind : TagKind) (content : String)
  | text (content : String)
  | whole (n : Nat)
  | quantity (x : α)
  | sequence (items : List (Tree α))
  | mapping (entries : List (String × Tree α))

namespace Tree

open Decimal

variable {α : Type}

/-- The words for nothing. -/
def isNullWord (word : String) : Bool :=
  word = "" || word = "~" || word = "null" || word = "Null" || word = "NULL"

/-- Is there more than one digit, with a zero in front? Such a word is no number. -/
def hasLeadingZero (chars : List Char) : Bool :=
  let digits := (splitSign chars).2
  1 < digits.length && digits.head? = some '0' && digits.all Char.isDigit

/-- The digits after a mark for a base, and the base. -/
def splitBase : List Char → Nat × List Char
  | '0' :: 'x' :: digits => (16, digits)
  | '0' :: 'o' :: digits => (8, digits)
  | '0' :: 'b' :: digits => (2, digits)
  | digits => (10, digits)

/-- A natural number below `2 ^ 64`: digits after a plus sign or none, or after a mark for a base,
without a zero in front of other digits. -/
def naturalOfWord? (word : String) : Option Nat :=
  let chars := word.toList
  let unsigned := if chars.head? = some '+' then chars.drop 1 else chars
  let (base, digits) := splitBase unsigned
  if hasLeadingZero chars then none
  else (readNat? base digits).filter (· < Nat.pow 2 64)

/-- The text of a scalar, as it was written. -/
def text? [Numeral α] : Tree α → Option String
  | plain written => some written
  | tagged _ content => some content
  | text content => some content
  | whole n => some (natText n)
  | quantity x => some (Numeral.document x)
  | sequence _ => none
  | mapping _ => none

/-- The quantity that an unquoted scalar stands for. -/
def quantity? [Numeral α] : Tree α → Option α
  | plain written => Numeral.ofDocument? written
  | tagged kind content => if kind = .natural then none else Numeral.ofDocument? content
  | whole n => Numeral.ofDocument? (natText n)
  | quantity x => some x
  | text _ => none
  | sequence _ => none
  | mapping _ => none

/-- The natural number up to a bound that an unquoted scalar stands for. -/
def natural? (bound : Nat) : Tree α → Option Nat
  | plain written => (naturalOfWord? written).filter (· ≤ bound)
  | tagged kind content =>
      if kind = .quantity then none else (naturalOfWord? content).filter (· ≤ bound)
  | whole n => if n ≤ bound then some n else none
  | quantity _ => none
  | text _ => none
  | sequence _ => none
  | mapping _ => none

/-- Is nothing written? -/
def isEmpty : Tree α → Bool
  | plain written => written = ""
  | tagged kind content => (kind = .nothing || kind = .something) && content = ""
  | _ => false

/-- The members of a sequence. -/
def items? : Tree α → Option (List (Tree α))
  | sequence items => some items
  | tree => if tree.isEmpty then some [] else none

/-- The entries of a mapping. -/
def entries? : Tree α → Option (List (String × Tree α))
  | mapping entries => some entries
  | tree => if tree.isEmpty then some [] else none

/-- Does a tree stand for nothing? One that is tagged so has to have a word for it. -/
def isNull? : Tree α → Option Bool
  | plain written => some (isNullWord written)
  | tagged .nothing content => if isNullWord content ∧ content ≠ "" then some true else none
  | _ => some false

/-- The entries of a mapping whose keys are all among `allowed`, each at most once. -/
def record? (allowed : List String) (tree : Tree α) : Option (List (String × Tree α)) := do
  let entries ← tree.entries?
  let keys := entries.map Prod.fst
  if keys.all allowed.contains ∧ keys.Nodup then some entries else none

/-- A field that must be there. -/
def required {β : Type} (key : String) (read : Tree α → Option β)
    (entries : List (String × Tree α)) : Option β := do
  read (← entries.lookup key)

/-- A field that has a value of its own where it is not there. -/
def withDefault {β : Type} (key : String) (standard : β) (read : Tree α → Option β)
    (entries : List (String × Tree α)) : Option β :=
  match entries.lookup key with
  | some tree => read tree
  | none => some standard

/-- A field that may be missing or stand for nothing. -/
def optional {β : Type} (key : String) (read : Tree α → Option β)
    (entries : List (String × Tree α)) : Option (Option β) :=
  match entries.lookup key with
  | some tree => do if ← tree.isNull? then some none else (read tree).map some
  | none => some none

/-- A list, with a reader of its members. -/
def listOf? {β : Type} (read : Tree α → Option β) (tree : Tree α) : Option (List β) := do
  (← tree.items?).mapM read

/-- A mapping, with a reader of its values. -/
def mapOf? {β : Type} (read : Tree α → Option β) (tree : Tree α) : Option (List (String × β)) := do
  (← tree.entries?).mapM fun (key, value) => (read value).map (key, ·)

/-- Puts an entry into a list sorted by key, in place of one with the same key. -/
def insertEntry {β : Type} (key : String) (value : β) : List (String × β) → List (String × β)
  | [] => [(key, value)]
  | (other, kept) :: rest =>
      if key < other then (key, value) :: (other, kept) :: rest
      else if key = other then (key, value) :: rest
      else (other, kept) :: insertEntry key value rest

/-- The entries by key. Of entries with the same key the last one stays. -/
def sortEntries {β : Type} (entries : List (String × β)) : List (String × β) :=
  entries.foldl (fun sorted (key, value) => insertEntry key value sorted) []

end Tree

end WattPlan
