import WattPlan.Fault

/-!
# Files of a command

A command reads and writes files through a `FileAccess`, so that what it does is the same in a real
directory and in a `Folder`, which is a directory as a value.
-/

namespace WattPlan.CommandLine

/-- How a command gets at files. -/
structure FileAccess (m : Type → Type) where
  read : String → m (Except FileFault String)
  write : String → String → m (Except FileFault Unit)

/-- How serious a line of a log is. -/
inductive Level where
  | info
  | error
deriving DecidableEq, Repr

/-- The word for a level. -/
def Level.word : Level → String
  | .info => "INFO"
  | .error => "ERROR"

/-- A line of a log. -/
structure LogLine where
  level : Level
  message : String

/-- A line of a log as text. -/
def LogLine.text (line : LogLine) : String :=
  line.level.word ++ " " ++ line.message

/-- What a command ends with: its exit code, what it prints and what it logs. -/
structure Ending where
  exit : Nat
  printed : String
  log : List LogLine

namespace Ending

/-- The end of a command that was called the wrong way. -/
def misuse : Ending :=
  ⟨2, "", []⟩

/-- The end of a command that was asked for help. -/
def help : Ending :=
  ⟨0, "", []⟩

/-- The end of a command that failed. -/
def failure (message : String) : Ending :=
  ⟨1, "", [⟨.error, message⟩]⟩

/-- The end of a command that broke off while it drew. -/
def abort : Ending :=
  ⟨101, "", []⟩

end Ending

/-- The working directory: the texts of its files by path. Of the directories around it nothing is
known but that they are there. -/
structure Folder where
  files : List (String × String)

namespace Folder

/-- A place, by the steps that lead to it from the working directory or from the root, which is
`["/"]`. Steps upwards stand at the head. -/
abbrev Place : Type :=
  List String

/-- The steps of a path. -/
def steps (path : String) : List String :=
  (path.splitOn "/").filter (· ≠ "")

/-- The place that a path starts from. -/
def origin (path : String) : Place :=
  if path.startsWith "/" then ["/"] else []

/-- The place one level higher. -/
def parent (place : Place) : Place :=
  match place.getLast? with
  | none => [".."]
  | some ".." => place ++ [".."]
  | some "/" => place
  | some _ => place.dropLast

/-- The place that a path means where all its directories are there. -/
def place (path : String) : Place :=
  (steps path).foldl (fun place step =>
    if step = "." then place else if step = ".." then parent place else place ++ [step])
    (origin path)

/-- The text of the file at a place. -/
def text? (folder : Folder) (there : Place) : Option String :=
  (folder.files.find? fun file => place file.1 = there).map Prod.snd

/-- Is there a directory at a place? -/
def isDirectory (folder : Folder) (there : Place) : Bool :=
  there.all (fun step => step = ".." || step = "/") ||
    folder.files.any fun file => (place file.1).dropLast.take there.length = there

/-- The largest number of bytes of a step. -/
def longestStep : Nat :=
  255

/-- The largest number of bytes of a path. -/
def longestPath : Nat :=
  4095

/-- The directory that a step leads to. -/
def enter (folder : Folder) (here : Place) (step : String) : Except FileFault Place :=
  if step = "." then .ok here
  else if step = ".." then .ok (parent here)
  else
    let next := here ++ [step]
    if longestStep < step.utf8ByteSize then .error .nameTooLong
    else if folder.isDirectory next then .ok next
    else if (folder.text? next).isSome then .error .notDirectory
    else .error .missing

/-- What a path leads to: a directory for sure, or a step in a directory. -/
inductive Target where
  | directory
  | entry (directory : Place) (step : String)

/-- Follows a path to its last step. -/
def follow (folder : Folder) (path : String) : Except FileFault Target := do
  if path = "" then .error .missing
  else if longestPath < path.utf8ByteSize then .error .nameTooLong
  else
    let steps := steps path
    let directory ← steps.dropLast.foldlM folder.enter (origin path)
    match steps.getLast? with
    | none => .ok .directory
    | some last =>
        if last = "." ∨ last = ".." then .ok .directory else .ok (.entry directory last)

/-- The text of a file. -/
def read (folder : Folder) (path : String) : Except FileFault String := do
  match ← folder.follow path with
  | .directory => .error .isDirectory
  | .entry directory step =>
      let there := directory ++ [step]
      if longestStep < step.utf8ByteSize then .error .nameTooLong
      else if folder.isDirectory there then .error .isDirectory
      else
        match folder.text? there with
        | none => .error .missing
        | some text => if path.endsWith "/" then .error .notDirectory else .ok text

/-- The directory after a text was written to a path, in place of a file that was there. -/
def write (folder : Folder) (path text : String) : Except FileFault Folder := do
  match ← folder.follow path with
  | .directory => .error .isDirectory
  | .entry directory step =>
      let there := directory ++ [step]
      if path.endsWith "/" then .error .isDirectory
      else if longestStep < step.utf8ByteSize then .error .nameTooLong
      else if folder.isDirectory there then .error .isDirectory
      else
        let others := folder.files.filter fun file => place file.1 ≠ there
        .ok ⟨others ++ [(String.intercalate "/" there, text)]⟩

/-- The files of a directory that is carried along. -/
def access : FileAccess (StateM Folder) where
  read path := fun folder => (folder.read path, folder)
  write path text := fun folder =>
    match folder.write path text with
    | .ok next => (.ok (), next)
    | .error fault => (.error fault, folder)

end Folder

end WattPlan.CommandLine
