import Equate.Diagnostic.Json
import Equate.Node.Numeral
/-!
# Options

How a compilation runs and what it logs. The environment decides: a flag is on if its value starts
with `1`, `t`, `T`, `y` or `Y`.
-/

namespace Equate

/-- The values of environment variables. -/
abbrev Environment := Bytes → Option Bytes

structure Options where
  /-- Log every result as JSON. -/
  diagJson : Bool := false
  /-- Log what is being compiled. -/
  trace : Bool := false
  /-- How many workers to use. -/
  jobs : Nat := 1
  /-- Remember the outputs of declarations. -/
  cache : Bool := true
  /-- Attach fixes to diagnostics. -/
  fixHints : Bool := true
  deriving DecidableEq, Repr

namespace Environment

def flag (env : Environment) (name : Bytes) : Bool :=
  match (env name).bind List.head? with
  | some b => (utf8 "1tTyY").contains b
  | none => false

end Environment

/-- The number at the front of a text, after blanks and a sign. Numbers from 2^64 on count as the
largest word, and a minus sign negates modulo 2^64. -/
def leadingWord? (s : Bytes) : Option Nat :=
  let blank (b : UInt8) : Bool := b == Ascii.space || (Ascii.tab ≤ b && b ≤ Ascii.carriageReturn)
  let (sign, s) := Numeral.splitSign (s.dropWhile blank)
  let digits := s.takeWhile Ascii.isDigit
  let n := Bytes.toNat digits
  if digits.isEmpty then none
  else if 0x10000000000000000 ≤ n then some 0xffffffffffffffff
  else if sign = [Ascii.minus] then some ((0x10000000000000000 - n) % 0x10000000000000000)
  else some n

/-- The largest number of workers that can be asked for. -/
def maxJobs : Nat := 256

namespace Options

/-- The environment variables that options depend on. -/
def variableNames : List String :=
  ["EQGEN_DIAG_JSON", "EQGEN_TRACE", "EQGEN_JOBS", "EQGEN_NO_CACHE", "EQGEN_FIX_HINTS"]

/-- The options that an environment asks for. -/
def ofEnvironment (env : Environment) : Options where
  diagJson := env.flag "EQGEN_DIAG_JSON"
  trace := env.flag "EQGEN_TRACE"
  jobs :=
    match (env "EQGEN_JOBS").bind leadingWord? with
    | some n => if 0 < n ∧ n ≤ maxJobs then n else 1
    | none => 1
  cache := !env.flag "EQGEN_NO_CACHE"
  fixHints := (env "EQGEN_FIX_HINTS").bind List.head? != some Ascii.zero

/-- A line of the log; the message ends early at a NUL byte. -/
def logLine (topic message : Bytes) : Bytes :=
  utf8 "[eqgen][" ++ topic ++ utf8 "] " ++ message.untilNul ++ [Ascii.newline]

/-- The trace lines of messages, if tracing is on. -/
def traceLines (o : Options) (messages : List Bytes) : Bytes :=
  if o.trace then messages.flatMap (logLine "trace") else []

/-- The line for a finished report, if reports are logged. -/
def reportLine (o : Options) (r : Report) : Bytes :=
  if o.diagJson then logLine "diag" r.json else []

end Options

end Equate
