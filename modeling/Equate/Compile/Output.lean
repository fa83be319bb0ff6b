import Equate.Contract.Check
import Equate.Declaration.Reader
import Equate.Emission.Equality
import Equate.Emission.Enumeration
import Equate.Enumeration.Check
import Equate.Node.Hash
/-!
# Outputs of declarations

What one declaration form compiles to, by itself: it is read, checked, and turned into code if no
error was found on the way.
-/

namespace Equate

structure Output where
  /-- The qualified name; empty if the form has none. -/
  name : Bytes
  report : Report
  contract? : Option Contract := none
  table? : Option LookupTable := none
  /-- The generated section; empty unless there is a contract or a table. -/
  code : Bytes := []
  deriving DecidableEq, Repr

namespace Output

/-- The output of a checked class. -/
def ofContractCheck (name : Bytes) (reading : Report) (r : ContractCheck) : Output :=
  let report := reading.merge r.report
  match report.success, r.contract? with
  | true, some c => { name, report, contract? := some c, code := c.code }
  | _, _ => { name, report }

/-- The output of a checked enumeration. -/
def ofEnumerationCheck (name : Bytes) (reading : Report) (r : EnumerationCheck) : Output :=
  let report := reading.merge r.report
  match report.success, r.table? with
  | true, some t => { name, report, table? := some t, code := t.code }
  | _, _ => { name, report }

/-- Compiles a declaration form. -/
def ofForm (fixHints : Bool) (form : Node) : Output :=
  let c := Declaration.read { fixHints } form
  match c.declaration? with
  | some (.classDeclaration d) => ofContractCheck c.name c.report (d.check fixHints)
  | some (.enumeration d) => ofEnumerationCheck c.name c.report (d.check fixHints)
  | none => { name := c.name, report := c.report }

/-- The key under which the output of a form is remembered. -/
def key (fixHints : Bool) (form : Node) : UInt64 :=
  ((Hasher.start form.positionedHash).add (if fixHints then 1 else 0)).finish

/-- The output of a form at `location` whose name is that of an earlier form at `first`. -/
def duplicate (fixHints : Bool) (out : Output) (location first : Location) : Output :=
  let finding : Finding :=
    ⟨.duplicateDeclaration out.name, location, [⟨"first declared here", first⟩]⟩
  { name := out.name, report := out.report.add (finding.diagnostic ⟨out.name, fixHints⟩) }

end Output

end Equate
