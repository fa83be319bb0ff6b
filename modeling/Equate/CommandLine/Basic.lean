import Equate.Compile.Module
import Equate.Diagnostic.Text
/-!
# The command line

`eqgenc <file.edn> [-o out.hpp] [--json]` compiles one module. The generated code goes to the file
named by `-o`, or to standard output; with `--json` standard output gets the report instead.
-/

namespace Equate

/-- What was asked for. -/
structure CommandRequest where
  /-- The file to compile; empty if none was named. -/
  input : Bytes := []
  /-- The file to write; empty for standard output. -/
  output : Bytes := []
  json : Bool := false
  deriving DecidableEq, Repr

/-- Why a command line is refused. -/
inductive UsageError where
  | unknownOption (argument : Bytes)
  | unexpectedArgument (argument : Bytes)
  | noInput
  deriving DecidableEq, Repr

def UsageError.message : UsageError → Bytes
  | .unknownOption a => utf8 "unknown option: " ++ a ++ [Ascii.newline]
  | .unexpectedArgument a => utf8 "unexpected argument: " ++ a ++ [Ascii.newline]
  | .noInput => []

namespace CommandRequest

/-- Takes arguments from left to right. `-o` takes the argument behind it, if there is one. -/
def readArguments (r : CommandRequest) : List Bytes → Except UsageError CommandRequest
  | [] => .ok r
  | [a] =>
    if a = utf8 "--json" then .ok { r with json := true }
    else if a.head? = some Ascii.minus then .error (.unknownOption a)
    else if r.input.isEmpty then .ok { r with input := a }
    else .error (.unexpectedArgument a)
  | a :: b :: rest =>
    if a = utf8 "-o" then readArguments { r with output := b } rest
    else if a = utf8 "--json" then readArguments { r with json := true } (b :: rest)
    else if a.head? = some Ascii.minus then .error (.unknownOption a)
    else if r.input.isEmpty then readArguments { r with input := a } (b :: rest)
    else .error (.unexpectedArgument a)

/-- The request of a command line. -/
def ofArguments (arguments : List Bytes) : Except UsageError CommandRequest :=
  match readArguments {} arguments with
  | .error e => .error e
  | .ok r => if r.input.isEmpty then .error .noInput else .ok r

end CommandRequest

/-- What a run leaves behind: its exit code, what it printed, and the file it wrote, if any. -/
structure CommandOutcome where
  exitCode : UInt8
  stdout : Bytes := []
  stderr : Bytes := []
  written? : Option (Bytes × Bytes) := none
  deriving DecidableEq, Repr

def usage : Bytes := utf8 "usage: eqgenc <file.edn> [-o out.hpp] [--json]\n"

/-- What is told about a result on standard error: nothing if there is nothing to tell. -/
def ModuleResult.summary (r : ModuleResult) : Bytes :=
  if r.report.errors.isEmpty ∧ r.report.warnings.isEmpty then []
  else (if r.report.success then [] else utf8 "Contract check failed:\n") ++ r.report.text

/-- Delivers a result. -/
def CommandRequest.deliver (r : CommandRequest) (canWrite : Bytes → Bool) (result : ModuleResult)
    (log : Bytes) : CommandOutcome :=
  let stderr := log ++ (if r.json then [] else result.summary)
  let report := if r.json then result.report.json ++ [Ascii.newline] else []
  let exitCode := if result.report.success then 0 else 2
  if r.output.isEmpty then
    { exitCode, stderr, stdout := if r.json then report else result.source }
  else if canWrite r.output then
    { exitCode, stderr, stdout := report, written? := some (r.output, result.source) }
  else
    { exitCode := 1, stdout := report
      stderr := stderr ++ utf8 "failed to write " ++ r.output ++ [Ascii.newline] }

/-- Runs a command line, given the environment and the files. -/
def runCommand (env : Environment) (contentsOf : Bytes → Option Bytes) (canWrite : Bytes → Bool)
    (arguments : List Bytes) : CommandOutcome :=
  match CommandRequest.ofArguments arguments with
  | .error e => { exitCode := 1, stderr := e.message ++ usage }
  | .ok r =>
    match contentsOf r.input with
    | none =>
      { exitCode := 1, stderr := utf8 "failed to read " ++ r.input ++ [Ascii.newline] }
    | some text =>
      match Compiler.compileText { options := .ofEnvironment env } text with
      | (.error e, _, log) =>
        { exitCode := 1
          stderr := log ++ r.input ++ utf8 ": parse error: " ++ e.message ++ [Ascii.newline] }
      | (.ok result, _, log) => r.deliver canWrite result log

end Equate
