import Equate.Diagnostic.Rule
import Equate.Node.Basic
/-!
# Diagnostics and reports

A diagnostic names the rule that was broken, tells what to do about it, and may carry notes that
point elsewhere and fixes that a tool can apply. A report collects diagnostics, errors apart from
warnings, and keeps a flag that it holds no errors.
-/

namespace Equate

/-- A remark on a further place. -/
structure Note where
  message : Bytes
  location : Location
  deriving DecidableEq, Repr

/-- A repair that a tool can offer; `key` is stable. -/
structure Fix where
  key : Bytes
  title : Bytes
  deriving DecidableEq, Repr

structure Diagnostic where
  code : Bytes
  severity : Severity
  message : Bytes
  hint : Bytes
  location : Location
  notes : List Note := []
  fixes : List Fix := []
  declaration : Bytes
  deriving DecidableEq, Repr

structure Report where
  success : Bool := true
  errors : List Diagnostic := []
  warnings : List Diagnostic := []
  deriving DecidableEq, Repr

namespace Report

def empty : Report := {}

/-- Appends a diagnostic to the errors or the warnings; an error takes the success away. -/
def add (r : Report) (d : Diagnostic) : Report :=
  match d.severity with
  | .error => { r with success := false, errors := r.errors ++ [d] }
  | .warning => { r with warnings := r.warnings ++ [d] }

/-- The report of the diagnostics in their order. -/
def ofList (ds : List Diagnostic) : Report := ds.foldl add empty

/-- One report behind the other; both must succeed. -/
def merge (a b : Report) : Report :=
  ⟨a.success && b.success, a.errors ++ b.errors, a.warnings ++ b.warnings⟩

end Report

/-- What every diagnostic of one pass has in common: the declaration it is about, and whether
fixes are wanted. -/
structure Reporter where
  declaration : Bytes := []
  fixHints : Bool := true
  deriving DecidableEq, Repr

namespace Reporter

/-- A diagnostic with the severity of its code. Without fix hints its fixes are dropped. -/
def diagnostic (rep : Reporter) (code message hint : Bytes) (location : Location)
    (notes : List Note := []) (fixes : List Fix := []) : Diagnostic :=
  { code, severity := .ofCode code, message, hint, location, notes
    fixes := if rep.fixHints then fixes else []
    declaration := rep.declaration }

/-- A diagnostic for a broken rule. -/
def diagnose (rep : Reporter) (rule : Rule) (message hint : Bytes) (location : Location)
    (notes : List Note := []) (fixes : List Fix := []) : Diagnostic :=
  rep.diagnostic rule.code message hint location notes fixes

end Reporter

end Equate
