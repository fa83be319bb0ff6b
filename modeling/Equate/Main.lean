import Equate.CommandLine.Basic
/-!
# The program

Reads the arguments, the environment and the input file, runs the command line on them, and writes
what came of it.
-/

namespace Equate

/-- The variables that options depend on, with their present values. -/
def currentEnvironment : IO Environment := do
  let values ← Options.variableNames.mapM fun name => do
    return (utf8 name, (← IO.getEnv name).map utf8)
  return fun name => (values.find? fun v => v.1 == name).bind Prod.snd

/-- Opens a file for reading, if that is possible. -/
def openPath (path : Bytes) : IO (Option IO.FS.Handle) := do
  let some name := String.fromUTF8? ⟨path.toArray⟩ | return none
  try
    return some (← IO.FS.Handle.mk name .read)
  catch _ => return none

/-- The contents of a file that can be opened. What opens but has no bytes to read, such as a
directory, is empty. -/
def readPath (path : Bytes) : IO (Option Bytes) := do
  let some handle ← openPath path | return none
  try
    return some (← handle.readBinToEnd).data.toList
  catch _ => return some []

/-- Writes a file and tells whether that was possible. -/
def writePath (path contents : Bytes) : IO Bool := do
  let some name := String.fromUTF8? ⟨path.toArray⟩ | return false
  try
    IO.FS.writeBinFile name ⟨contents.toArray⟩
    return true
  catch _ => return false

end Equate

open Equate in
def main (arguments : List String) : IO UInt32 := do
  let arguments := arguments.map utf8
  let env ← currentEnvironment
  let input? ←
    match CommandRequest.ofArguments arguments with
    | .ok request => readPath request.input
    | .error _ => pure none
  let outcome (writable : Bool) := runCommand env (fun _ => input?) (fun _ => writable) arguments
  let final ←
    match (outcome true).written? with
    | some (path, contents) => do
      let written ← writePath path contents
      pure (outcome written)
    | none => pure (outcome true)
  (← IO.getStdout).write ⟨final.stdout.toArray⟩
  (← IO.getStderr).write ⟨final.stderr.toArray⟩
  return final.exitCode.toUInt32
