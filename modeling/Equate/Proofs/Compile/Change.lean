import Equate.Compile.Module
import Equate.Proofs.Declaration.Relocation
import Equate.Proofs.Diagnostic.Report
/-!
# Changes of results

A change of diagnostics that keeps severities, and of contracts that keeps their code, goes through
everything that is made of them: outputs, duplicates, and the result of a module
(`OutputChange.ofOutputs_result`).
-/

namespace Equate

/-- A change of diagnostics and contracts that goes through the making of results: with it go a
change of forms and one of places. Before it results are made with `fixHints`, and after it with
`fixHints'`. -/
structure OutputChange (fixHints fixHints' : Bool) where
  node : Node → Node
  place : Location → Location
  diagnostic : Diagnostic → Diagnostic
  contract : Contract → Contract
  location_node : ∀ n, (node n).location = place n.location
  severity_diagnostic : ∀ d, (diagnostic d).severity = d.severity
  code_contract : ∀ k, (contract k).code = k.code
  diagnostic_finding : ∀ name fault location note first,
    diagnostic (Finding.diagnostic ⟨name, fixHints⟩ ⟨fault, location, [⟨note, first⟩]⟩) =
      Finding.diagnostic ⟨name, fixHints'⟩ ⟨fault, place location, [⟨note, place first⟩]⟩

namespace OutputChange

variable {fixHints fixHints' : Bool} (c : OutputChange fixHints fixHints')

/-- The output with its diagnostics and its contract changed. -/
def output (out : Output) : Output :=
  { out with report := out.report.map c.diagnostic, contract? := out.contract?.map c.contract }

/-- The result with all its diagnostics and contracts changed. -/
def result (r : ModuleResult) : ModuleResult :=
  ⟨r.report.map c.diagnostic, r.declarations.map c.output⟩

@[simp] theorem name_output (out : Output) : (c.output out).name = out.name := rfl

theorem source_result (r : ModuleResult) : (c.result r).source = r.source := by
  unfold ModuleResult.source result
  rw [List.flatMap_map]
  rfl

theorem output_duplicate (out : Output) (location first : Location) :
    c.output (out.duplicate fixHints location first) =
      (c.output out).duplicate fixHints' (c.place location) (c.place first) := by
  simp only [Output.duplicate, output, Report.map_add c.severity_diagnostic, c.diagnostic_finding,
    Option.map_none]

theorem ofContractCheck_output (name : Bytes) (reading : Report) (r : ContractCheck) :
    Output.ofContractCheck name (reading.map c.diagnostic)
        ⟨r.report.map c.diagnostic, r.contract?.map c.contract⟩ =
      c.output (Output.ofContractCheck name reading r) := by
  simp only [Output.ofContractCheck, ← Report.map_merge]
  -- a change leaves the verdict as it is, so both sides take the same branch
  cases hsuccess : (reading.merge r.report).success with
  | false => simp [Report.map, hsuccess, output]
  | true => cases hk : r.contract? <;> simp [Report.map, hsuccess, output, c.code_contract]

theorem ofEnumerationCheck_output (name : Bytes) (reading : Report) (r : EnumerationCheck) :
    Output.ofEnumerationCheck name (reading.map c.diagnostic)
        ⟨r.report.map c.diagnostic, r.table?⟩ =
      c.output (Output.ofEnumerationCheck name reading r) := by
  simp only [Output.ofEnumerationCheck, ← Report.map_merge]
  cases hsuccess : (reading.merge r.report).success with
  | false => simp [Report.map, hsuccess, output]
  | true => cases hk : r.table? <;> simp [Report.map, hsuccess, output]

theorem markDuplicates_output {seen seen' : Std.TreeMap Bytes Location}
    (hseen : SeenRelocated c.place seen seen') (pairs : List (Node × Output)) :
    ModuleResult.markDuplicates fixHints' seen' (pairs.map (Prod.map c.node c.output)) =
      (ModuleResult.markDuplicates fixHints seen pairs).map c.output := by
  induction pairs generalizing seen seen' with
  | nil => rfl
  | cons pair rest ih =>
    obtain ⟨form, out⟩ := pair
    simp only [List.map_cons, Prod.map_apply, ModuleResult.markDuplicates, c.name_output]
    by_cases hname : out.name.isEmpty = true
    · simp only [hname, if_true, List.map_cons, ih hseen]
    · simp only [hname, if_false, Bool.false_eq_true, hseen out.name]
      cases hfirst : seen[out.name]? with
      | some first =>
        simp only [Option.map_some, List.map_cons, ih hseen, c.output_duplicate, c.location_node]
      | none =>
        simp only [Option.map_none, List.map_cons, c.location_node,
          ih (hseen.insert out.name form.location)]

/-- The result of changed outputs is the changed result. -/
theorem ofOutputs_result (diagnostics : List Diagnostic) (forms : List Node)
    (outputs : List Output) :
    ModuleResult.ofOutputs fixHints' (diagnostics.map c.diagnostic) (forms.map c.node)
        (outputs.map c.output) =
      c.result (.ofOutputs fixHints diagnostics forms outputs) := by
  have hmerge (outs : List Output) (r : Report) :
      (outs.map c.output).foldl (fun r out => r.merge out.report) (r.map c.diagnostic) =
        (outs.foldl (fun r out => r.merge out.report) r).map c.diagnostic := by
    induction outs generalizing r with
    | nil => rfl
    | cons out outs ih =>
      rw [List.map_cons, List.foldl_cons, List.foldl_cons, ← ih, Report.map_merge]
      rfl
  simp only [ModuleResult.ofOutputs, result, List.zip_map, c.markDuplicates_output .empty,
    ← Report.map_ofList c.severity_diagnostic, hmerge]

end OutputChange

end Equate
