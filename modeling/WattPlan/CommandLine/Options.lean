import WattPlan.Decimal

/-!
# Options of a command

A command takes options only. An option with a value has it behind an equals sign or in the next
word, which must not look like an option; a short option can have it right behind its letter. `read`
takes the words in turn and stops at the first that breaks a rule or asks for help.
-/

namespace WattPlan.CommandLine

open Decimal

/-- What an option takes: nothing, or a value that it accepts. -/
inductive Operand where
  | flag
  | value (accepts : String → Bool)

/-- An option of a command, with its long name and its letter. Only one that may be repeated can be
given twice. -/
structure OptionRule where
  long : String
  letter : Option Char
  operand : Operand
  repeatable : Bool

/-- The options that were given, with their values, in the order of the words. -/
abbrev Given := List (String × String)

/-- What the words of a command come to. -/
inductive Reading where
  | options (given : Given)
  | help
  | misuse

namespace OptionRule

/-- An option that accepts any value. -/
def text (long : String) : OptionRule :=
  ⟨long, none, .value fun _ => true, false⟩

/-- An option that accepts the values a reader can read. -/
def reading {β : Type} (long : String) (read : String → Option β) : OptionRule :=
  ⟨long, none, .value fun value => (read value).isSome, false⟩

/-- An option that accepts the path of a file. -/
def path (long : String) (letter : Char) : OptionRule :=
  ⟨long, some letter, .value fun value => !value.isEmpty, false⟩

/-- An option without a value. -/
def flag (long : String) : OptionRule :=
  ⟨long, none, .flag, false⟩

end OptionRule

/-- The options given so far and one more, unless it is given twice or does not accept the value. -/
def record? (rule : OptionRule) (value : String) (given : Given) : Option Given :=
  let accepted :=
    match rule.operand with
    | .flag => true
    | .value accepts => accepts value
  if !accepted || (!rule.repeatable && (given.lookup rule.long).isSome) then none
  else some (given ++ [(rule.long, value)])

/-- A word of a command. -/
inductive Word where
  | long (name : String) (attached : Option String)
  | short (letter : Char) (attached : Option String)
  | separator
  | bare (text : String)

/-- What a word is by its dashes. -/
def Word.ofString (text : String) : Word :=
  match text.toList with
  | ['-', '-'] => .separator
  | '-' :: '-' :: rest =>
      let name := String.ofList (rest.takeWhile (· ≠ '='))
      match rest.dropWhile (· ≠ '=') with
      | _ :: value => .long name (some (String.ofList value))
      | [] => .long name none
  | ['-', letter] => .short letter none
  | '-' :: letter :: '=' :: value => .short letter (some (String.ofList value))
  | '-' :: letter :: value => .short letter (some (String.ofList value))
  | _ => .bare text

/-- Can a word be the value of the option before it? -/
def isValue (text : String) : Bool :=
  match Word.ofString text with
  | .bare _ => true
  | _ => false

/-- The option that a word names, and the value attached to it. -/
def ruleOf? (rules : List OptionRule) : Word → Option (OptionRule × Option String)
  | .long name attached => (rules.find? fun rule => rule.long = name).map (·, attached)
  | .short letter attached => (rules.find? fun rule => rule.letter = some letter).map (·, attached)
  | .separator => none
  | .bare _ => none

/-- Does a word ask for help? -/
def asksForHelp : Word → Bool
  | .long name attached => name = "help" && attached.isNone
  | .short letter _ => letter = 'h'
  | .separator => false
  | .bare _ => false

/-- Reads the words that follow the given options. -/
def readFrom (rules : List OptionRule) (given : Given) : List String → Reading
  | [] => .options given
  | word :: rest =>
      match Word.ofString word with
      | .separator => if rest.isEmpty then .options given else .misuse
      | named =>
          match ruleOf? rules named with
          | none => if asksForHelp named then .help else .misuse
          | some (rule, attached) =>
              match rule.operand, attached, rest with
              | .flag, some _, _ => .misuse
              | .flag, none, rest =>
                  match record? rule "" given with
                  | some given => readFrom rules given rest
                  | none => .misuse
              | .value _, some value, rest =>
                  match record? rule value given with
                  | some given => readFrom rules given rest
                  | none => .misuse
              | .value _, none, [] => .misuse
              | .value _, none, value :: rest =>
                  if isValue value then
                    match record? rule value given with
                    | some given => readFrom rules given rest
                    | none => .misuse
                  else .misuse

/-- Reads the words of a command. -/
def read (rules : List OptionRule) (words : List String) : Reading :=
  readFrom rules [] words

namespace Given

/-- The value of an option. -/
def value? (given : Given) (long : String) : Option String :=
  List.lookup long given

/-- The values of an option that may be repeated. -/
def values (given : Given) (long : String) : List String :=
  (given.filter fun option => option.1 = long).map Prod.snd

/-- Was an option given? -/
def has (given : Given) (long : String) : Bool :=
  (given.value? long).isSome

/-- The value of an option as a reader reads it. -/
def read? {β : Type} (given : Given) (long : String) (read : String → Option β) : Option β :=
  (given.value? long).bind read

end Given

/-- A natural number of 64 bits, with a plus sign or none. -/
def readCount? (text : String) : Option Nat :=
  let chars := text.toList
  let digits := if chars.head? = some '+' then chars.drop 1 else chars
  (readNat? 10 digits).filter (· < Nat.pow 2 64)

end WattPlan.CommandLine
