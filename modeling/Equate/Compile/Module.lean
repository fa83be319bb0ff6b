import Std.Data.TreeMap
import Equate.Compile.Pool
import Equate.Node.Reader
/-!
# Compiling modules

A compiler has options and a cache that lives through all its compilations. A module compiles to
the outputs of its declarations in their order. Of declarations with one name only the first keeps
its contract, table and code.
-/

namespace Equate

/-! ## Results -/

structure ModuleResult where
  report : Report
  declarations : List Output
  deriving DecidableEq, Repr

namespace ModuleResult

/-- The generated file. -/
def source (r : ModuleResult) : Bytes := Emission.prelude ++ r.declarations.flatMap Output.code

/-- Turns the outputs of later declarations with a name that was `seen` into duplicates. -/
def markDuplicates (fixHints : Bool) (seen : Std.TreeMap Bytes Location) :
    List (Node × Output) → List Output
  | [] => []
  | (form, out) :: rest =>
    if out.name.isEmpty then out :: markDuplicates fixHints seen rest
    else
      match seen[out.name]? with
      | some first =>
        out.duplicate fixHints form.location first :: markDuplicates fixHints seen rest
      | none => out :: markDuplicates fixHints (seen.insert out.name form.location) rest

/-- The result of a module, given what was wrong with the module itself, its forms and their
outputs. -/
def ofOutputs (fixHints : Bool) (diagnostics : List Diagnostic) (forms : List Node)
    (outputs : List Output) : ModuleResult :=
  let declarations := markDuplicates fixHints {} (forms.zip outputs)
  ⟨declarations.foldl (fun r out => r.merge out.report) (.ofList diagnostics), declarations⟩

end ModuleResult

/-! ## Compilers -/

structure Compiler where
  options : Options
  cache : Cache Output := .empty

namespace Compiler

/-- How many workers compile so many forms. -/
def workers (o : Options) (forms : Nat) : Nat := min (max 1 o.jobs) forms

/-- The outputs of forms, the cache behind them, and what was logged. -/
def compileForms (c : Compiler) (forms : List Node) :
    List Output × Cache Output × List CompileEvent :=
  let n := workers c.options forms.length
  if n ≤ 1 then compileSerially c.options c.cache forms
  else compileInPool c.options n c.cache forms

/-- Compiles a module. The bytes are what is logged. -/
def compile (c : Compiler) (m : Node) : ModuleResult × Compiler × Bytes :=
  let (diagnostics, forms) := moduleDeclarations { fixHints := c.options.fixHints } m
  let (outputs, cache, events) := c.compileForms forms
  let result := ModuleResult.ofOutputs c.options.fixHints diagnostics forms outputs
  let started := CompileEvent.started forms.length (max (workers c.options forms.length) 1)
  let log := c.options.traceLines ((started :: events).map CompileEvent.message) ++
    c.options.reportLine result.report
  (result, { c with cache }, log)

/-- Reads and compiles a text. A text that cannot be read changes nothing and logs nothing. -/
def compileText (c : Compiler) (text : Bytes) :
    Except ReadError ModuleResult × Compiler × Bytes :=
  match Node.read text with
  | .error e => (.error e, c, [])
  | .ok m =>
    let (result, c, log) := c.compile m
    (.ok result, c, log)

/-- Forgets all outputs and starts counting anew. -/
def clear (c : Compiler) : Compiler := { c with cache := .empty }

end Compiler

/-! ## Sessions -/

/-- What a compiler can be asked to do. -/
inductive CompilerAction where
  | compile (text : Bytes)
  | clear
  deriving DecidableEq, Repr

/-- What an action comes to. -/
inductive CompilerAnswer where
  | compiled (result : Except ReadError ModuleResult) (log : Bytes)
  | cleared

namespace Compiler

/-- Carries out an action. -/
def step (c : Compiler) : CompilerAction → CompilerAnswer × Compiler
  | .compile text =>
    let (result, c, log) := c.compileText text
    (.compiled result log, c)
  | .clear => (.cleared, c.clear)

/-- Carries out actions in order. -/
def run (c : Compiler) : List CompilerAction → List CompilerAnswer × Compiler
  | [] => ([], c)
  | action :: actions =>
    let (answer, c) := c.step action
    let (answers, c) := c.run actions
    (answer :: answers, c)

end Compiler

end Equate
