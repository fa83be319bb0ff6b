import Equate.Proofs.Compile.Key
import Equate.Proofs.Compile.Origin
import Equate.Proofs.Declaration.Parts
import Equate.Proofs.Diagnostic.History
/-!
# The bookkeeping of results

Every report comes about by reporting and merging, and so its flag tells whether it has errors, and
its errors and warnings are what their codes say: the reports of readings, of checks, of outputs,
and of the modules that a compiler compiles, whatever it compiled before
(`Compiler.consistent_of_reaches`).
-/

namespace Equate

/-! ## Readings and checks -/

theorem Finding.isGraded_diagnostic (rep : Reporter) (f : Finding) : (f.diagnostic rep).IsGraded :=
  Diagnostic.isGraded_of_eq rfl

theorem Declaration.isConsistent_read (rep : Reporter) (form : Node) :
    (read rep form).report.IsConsistent := by
  refine Report.isConsistent_ofList fun d hd => ?_
  obtain ⟨f, -, rep', rfl⟩ := exists_finding_of_mem_diagnostics hd
  exact f.isGraded_diagnostic rep'

theorem isGraded_of_mem_moduleDeclarations {rep : Reporter} {m : Node} {d : Diagnostic}
    (h : d ∈ (moduleDeclarations rep m).1) : d.IsGraded := by
  unfold moduleDeclarations at h
  split at h
  · cases h
  · obtain rfl := List.mem_singleton.1 h
    exact Finding.isGraded_diagnostic _ _

theorem ClassDeclaration.isConsistent_check (fixHints : Bool) (d : ClassDeclaration) :
    (d.check fixHints).report.IsConsistent := by
  rw [check_eq]
  exact Report.isConsistent_ofList_map (fun _ => Diagnostic.isGraded_of_eq rfl) d.violations

theorem EnumDeclaration.isConsistent_check (fixHints : Bool) (d : EnumDeclaration) :
    (d.check fixHints).report.IsConsistent := by
  rw [check_eq]
  exact Report.isConsistent_ofList_map (fun _ => Diagnostic.isGraded_of_eq rfl) d.violations

/-! ## Outputs -/

namespace Output

theorem isConsistent_ofForm (fixHints : Bool) (form : Node) :
    (ofForm fixHints form).report.IsConsistent := by
  rw [ofForm_eq_ofReading, report_ofReading]
  refine (Declaration.isConsistent_read _ form).merge ?_
  rcases (Declaration.read { fixHints } form).declaration? with _ | ⟨d⟩ | d
  · exact Report.isConsistent_empty
  · exact d.isConsistent_check fixHints
  · exact d.isConsistent_check fixHints

theorem isConsistent_duplicate {out : Output} (h : out.report.IsConsistent) (fixHints : Bool)
    (location first : Location) : (out.duplicate fixHints location first).report.IsConsistent := by
  unfold duplicate
  exact h.add (Finding.isGraded_diagnostic _ _)

end Output

/-! ## Results -/

/-- Whether the report of a result, and that of each declaration of it, is consistent. -/
structure ModuleResult.IsConsistent (r : ModuleResult) : Prop where
  report : r.report.IsConsistent
  declarations : ∀ out ∈ r.declarations, out.report.IsConsistent

theorem ModuleResult.isConsistent_ofOutputs (fixHints : Bool) {diagnostics : List Diagnostic}
    (hdiagnostics : ∀ d ∈ diagnostics, d.IsGraded) (forms : List Node) {outputs : List Output}
    (houtputs : ∀ out ∈ outputs, out.report.IsConsistent) :
    (ofOutputs fixHints diagnostics forms outputs).IsConsistent := by
  have hdeclarations :
      ∀ out ∈ (ofOutputs fixHints diagnostics forms outputs).declarations,
        out.report.IsConsistent := by
    intro out hout
    obtain ⟨own, hown, rfl | ⟨location, first, rfl⟩⟩ := exists_of_mem_declarations hout
    · exact houtputs _ hown
    · exact Output.isConsistent_duplicate (houtputs own hown) fixHints location first
  refine ⟨?_, hdeclarations⟩
  -- the reports of the declarations are merged into that of the module one after the other
  have hfoldl (outs : List Output) (houts : ∀ out ∈ outs, out.report.IsConsistent) (r : Report)
      (hr : r.IsConsistent) :
      (outs.foldl (fun r out => r.merge out.report) r).IsConsistent := by
    induction outs generalizing r with
    | nil => exact hr
    | cons out outs ih =>
      obtain ⟨hout, houts⟩ := List.forall_mem_cons.1 houts
      exact ih houts _ (hr.merge hout)
  exact hfoldl _ hdeclarations _ (Report.isConsistent_ofList hdiagnostics)

namespace Compiler

variable {o : Options} {actions : List CompilerAction} {c : Compiler}

/-- What a compiler makes of a module is consistent, whatever it compiled before and under any
schedule. -/
theorem isConsistent_of_returns (h : Reaches ⟨o, .empty⟩ actions c) {m : Node} {r : ModuleResult}
    (hr : c.Returns m r) : r.IsConsistent := by
  have hcache : c.cache.All fun out => out.report.IsConsistent :=
    all_of_reaches (fun _ _ form _ => Output.isConsistent_ofForm _ form) Cache.all_empty h
  obtain ⟨outputs, houtputs, rfl⟩ :=
    exists_outputs_of_returns (fun form _ => Output.isConsistent_ofForm _ form) hcache hr
  exact ModuleResult.isConsistent_ofOutputs _ (fun _ => isGraded_of_mem_moduleDeclarations) _
    houtputs

/-- Whatever is done to any number of reports that start empty, each of them succeeds exactly if it
has no errors, and its errors and its warnings are what their codes say. Merging one into another
puts its diagnostics behind those that are there and touches no third one. So it is with the reports
of readings, of checks, and of compiled modules and their declarations. -/
theorem consistent_of_reaches :
    (∀ reports, Report.Reaches reports → ∀ i, (reports i).IsConsistent) ∧
    (∀ (reporter : Nat → Reporter) (h : List ReportAction),
      Report.Reaches (ReportHistory.run reporter h).reports) ∧
    (∀ (reporter : Nat → Reporter) (h : ReportHistory) (target source : Nat),
      let reports := (h.step reporter (.merge target source)).reports
      (reports target).errors = (h.reports target).errors ++ (h.reports source).errors ∧
      (reports target).warnings = (h.reports target).warnings ++ (h.reports source).warnings ∧
      ∀ i ≠ target, reports i = h.reports i) ∧
    (∀ (rep : Reporter) (form : Node), (Declaration.read rep form).report.IsConsistent) ∧
    (∀ (rep : Reporter) (m : Node), (Report.ofList (moduleDeclarations rep m).1).IsConsistent) ∧
    (∀ (fixHints : Bool) (d : ClassDeclaration), (d.check fixHints).report.IsConsistent) ∧
    (∀ (fixHints : Bool) (d : EnumDeclaration), (d.check fixHints).report.IsConsistent) ∧
    ∀ (o : Options) (actions : List CompilerAction) (c : Compiler) (m : Node) (r : ModuleResult),
      Reaches ⟨o, .empty⟩ actions c → c.Returns m r → r.IsConsistent := by
  refine ⟨fun _ => Report.isConsistent_of_reaches, ReportHistory.reaches_run, ?_,
    Declaration.isConsistent_read, ?_, ClassDeclaration.isConsistent_check,
    EnumDeclaration.isConsistent_check, fun _ _ _ _ _ h hr => isConsistent_of_returns h hr⟩
  · intro reporter h target source
    refine ⟨?_, ?_, fun i hi => ?_⟩
    · simp [ReportHistory.step, ReportHistory.setReport, Report.merge]
    · simp [ReportHistory.step, ReportHistory.setReport, Report.merge]
    · simp [ReportHistory.step, ReportHistory.setReport, hi]
  · exact fun rep m => Report.isConsistent_ofList fun _ => isGraded_of_mem_moduleDeclarations

/-- A warning with a note, an unknown code, and a repeated name with a fix in another report, which
is then appended to the first one. -/
def mergedActions : List ReportAction :=
  [.emit (utf8 "EQ002") (utf8 "w") [] .unknown, .note ⟨utf8 "n", .unknown⟩,
    .emit (utf8 "XX999") (utf8 "u") [] .unknown, .select 1,
    .emit (utf8 "EN002") (utf8 "e") [] .unknown, .fix ⟨utf8 "f", utf8 "t"⟩, .merge 0 1]

/-- A module with a warning, an error, and a declaration that repeats the name of another. -/
def consistentModule : Bytes :=
  utf8 "(module (class :name A :partial 1) (class :name A :base (wrapper i32) :members [" ++
    utf8 "(field :name x :type i32)]))"

theorem consistent_mergedActions :
    let reports := (ReportHistory.run (fun _ => {}) mergedActions).reports
    (reports 0).IsConsistent ∧ (reports 1).IsConsistent ∧ (reports 0).success = false ∧
      (reports 0).errors.map Diagnostic.code = [utf8 "XX999", utf8 "EN002"] ∧
      (reports 0).warnings.map Diagnostic.code = [utf8 "EQ002"] ∧
      ∃ m r, Node.read consistentModule = .ok m ∧ Returns ⟨{}, .empty⟩ m r ∧ r.IsConsistent ∧
        r.report.errors.length = 2 ∧ r.report.warnings.length = 1 := by
  obtain ⟨hreports, hrun, -, -, -, -, -, hresults⟩ := consistent_of_reaches
  have hconsistent := hreports _ (hrun (fun _ => {}) mergedActions)
  refine ⟨hconsistent 0, hconsistent 1, by decide, by decide, by decide, ?_⟩
  have hcounts : (Node.read consistentModule).toOption.map (fun m =>
      let r := (compile ⟨{}, .empty⟩ m).1
      (r.report.errors.length, r.report.warnings.length)) = some (2, 1) := by decide +kernel
  obtain ⟨m, hread, hcounts⟩ := exists_of_map_toOption hcounts
  obtain ⟨herrors, hwarnings⟩ := Prod.mk.inj hcounts
  have hreturns := returns_compile ⟨{}, .empty⟩ m
  exact ⟨m, _, hread, hreturns, hresults _ _ _ _ _ .nil hreturns, herrors, hwarnings⟩

end Compiler

end Equate
