import Lowering.Command.Perform

/-!
The program: reads the files and environment that a command line could need, carries it out, and
writes what comes of it.
-/

namespace Lowering.Main
open Command

/-- The settings that a variable of the environment can hold. -/
def settingNames : List String :=
  (sharedFlags ++ Verb.all.flatMap Verb.flags).map Flag.name

def readVariables : IO (List (String × String)) := do
  let names := settingNames.map Settings.variableName
  let found ← names.mapM fun name => do
    pure ((← IO.getEnv name).map fun value => (name, value))
  pure (found.filterMap id)

/-- The files among some paths. -/
def readFiles (paths : List String) : IO (List (String × List UInt8)) := do
  let found ← paths.mapM fun (path : String) => do
    try pure (some (path, (← IO.FS.readBinFile path).toList))
    catch _ => pure none
  pure (found.filterMap id)

/-- The words of a line that could be paths: all of them, and the values of long flags. -/
def possiblePaths (line : List String) : List String :=
  line ++ line.filterMap fun word => (splitValue word.toList).2

def fieldText : Field → String
  | .number n => toString n.toInt
  | .text s => s

def entryText (entry : LogEntry) : String :=
  let fields := entry.fields.map fun (name, field) => s!" {name}={fieldText field}"
  s!"{entry.level.text} {entry.message}" ++ String.join fields

/-- More steps than any run takes. -/
def fuel : Nat := 0x4000000000000000

end Lowering.Main

def main (line : List String) : IO UInt32 := do
  let environment ← Lowering.Main.readVariables
  let files ← Lowering.Main.readFiles
    (Lowering.Main.possiblePaths line ++ Lowering.Command.configNames ++ environment.map Prod.snd)
  let stdout ← IO.getStdout
  let stderr ← IO.getStderr
  let world : Lowering.Command.World := { files, environment, colored := ← stdout.isTty }
  let outcome := Lowering.Command.execute {} Lowering.Main.fuel world line
  outcome.log.forM fun entry => stderr.putStrLn (Lowering.Main.entryText entry)
  stdout.write (ByteArray.mk outcome.output.toArray)
  outcome.files.forM fun (path, content) => IO.FS.writeBinFile path (ByteArray.mk content.toArray)
  match outcome.failure with
  | none => pure 0
  | some failure =>
    stderr.putStrLn failure.message
    pure 1
