import WattPlan.CommandLine.Generation
import WattPlan.CommandLine.Planning
import WattPlan.Numeral.Binary64
import WattPlan.Scalar.Binary64

/-!
# The program

The first word names the command, `plan` or `generate`; the others are its options.
-/

open WattPlan.CommandLine

namespace WattPlan.Main

/-- Why the system refused a file. -/
def fileFault : IO.Error → FileFault
  | .noFileOrDirectory .. => .missing
  | .inappropriateType _ 21 _ => .isDirectory
  | .inappropriateType .. => .notDirectory
  | fault => .other fault.toString

/-- The files of the working directory. -/
def files : FileAccess IO where
  read path := do
    match ← (IO.FS.readFile path).toBaseIO with
    | .ok text => pure (.ok text)
    | .error fault => pure (.error (fileFault fault))
  write path text := do
    match ← (IO.FS.writeFile path text).toBaseIO with
    | .ok () => pure (.ok ())
    | .error fault => pure (.error (fileFault fault))

/-- Prints what a command ends with, its log to the given stream. -/
def finish (stream : IO.FS.Stream) (ending : Ending) : IO UInt32 := do
  IO.print ending.printed
  for line in ending.log do
    stream.putStrLn line.text
  pure (UInt32.ofNat ending.exit)

end WattPlan.Main

def main (words : List String) : IO UInt32 := do
  match words with
  | "plan" :: rest =>
      WattPlan.Main.finish (← IO.getStdout) (← Planning.run Float WattPlan.Main.files rest)
  | "generate" :: rest =>
      WattPlan.Main.finish (← IO.getStderr) (← Generation.run Float WattPlan.Main.files rest)
  | _ => WattPlan.Main.finish (← IO.getStderr) .misuse
