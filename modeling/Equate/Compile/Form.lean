import Equate.Compile.Cache
import Equate.Compile.Output
import Equate.Options
/-!
# Compiling forms one by one

A form is compiled through the cache: a search, and on a miss the work and the storing of its
output. Here this is one step after the other on a single worker.
-/

namespace Equate

/-- What is logged while a module is compiled. -/
inductive CompileEvent where
  | started (forms workers : Nat)
  | cacheHit (name : Bytes)
  | checked (name : Bytes) (errors warnings : Nat)
  deriving DecidableEq, Repr

namespace CompileEvent

def message : CompileEvent → Bytes
  | .started forms workers => utf8 "compiling " ++ Bytes.ofNat forms ++ utf8 " declarations on " ++
      Bytes.ofNat workers ++ utf8 " worker(s)"
  | .cacheHit name => utf8 "cache hit " ++ name
  | .checked name errors warnings =>
    let shown := if name.isEmpty then utf8 "<unnamed>" else name
    utf8 "checked " ++ shown ++ utf8 ": " ++ Bytes.ofNat errors ++ utf8 " errors, " ++
      Bytes.ofNat warnings ++ utf8 " warnings"

/-- The event of a form that has been compiled. -/
def ofOutput (out : Output) : CompileEvent :=
  .checked out.name out.report.errors.length out.report.warnings.length

end CompileEvent

/-- Searches the cache for the output of a form, if there is to be a cache. -/
def findOutput (o : Options) (cache : Cache Output) (form : Node) :
    Option Output × Cache Output :=
  if o.cache then cache.find (Output.key o.fixHints form) else (none, cache)

/-- Stores the output of a form, if there is to be a cache. -/
def storeOutput (o : Options) (cache : Cache Output) (form : Node) (out : Output) : Cache Output :=
  if o.cache then cache.store (Output.key o.fixHints form) out else cache

/-- Compiles a form through the cache. -/
def compileForm (o : Options) (cache : Cache Output) (form : Node) :
    Output × Cache Output × CompileEvent :=
  match findOutput o cache form with
  | (some out, cache) => (out, cache, .cacheHit out.name)
  | (none, cache) =>
    let out := Output.ofForm o.fixHints form
    (out, storeOutput o cache form out, .ofOutput out)

/-- Compiles forms in order. -/
def compileSerially (o : Options) (cache : Cache Output) :
    List Node → List Output × Cache Output × List CompileEvent
  | [] => ([], cache, [])
  | form :: forms =>
    let (out, cache, event) := compileForm o cache form
    let (outs, cache, events) := compileSerially o cache forms
    (out :: outs, cache, event :: events)

end Equate
