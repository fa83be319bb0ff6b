import Equate.Proofs.Compile.Key
import Equate.Proofs.Compile.Results
import Equate.Proofs.Contract.Acceptance
/-!
# What is generated

Each declaration of a result comes with one contract or one table and the code of it, or with
nothing at all. Errors decide: they come from the reading of the form, from the check of what was
read, and from an earlier form with the same name (`FaultyAt`), and with an error nothing is
generated. Without errors something is, unless the declaration is a class that asks for no equality.
-/

namespace Equate

namespace Output

/-- Nothing is generated. -/
structure Withheld (out : Output) : Prop where
  contract : out.contract? = none
  table : out.table? = none
  code : out.code = []

/-- The code of a contract or of a table is generated, and there are no errors. -/
structure Synthesized (out : Output) : Prop where
  errors : out.report.errors = []
  code : out.code ≠ []
  source : (∃ k, out.contract? = some k ∧ out.table? = none ∧ out.code = k.code) ∨
    ∃ t, out.contract? = none ∧ out.table? = some t ∧ out.code = t.code

theorem Withheld.not_synthesized {out : Output} (h : out.Withheld) : ¬ out.Synthesized :=
  fun hs => hs.code h.code

theorem withheld_duplicate (fixHints : Bool) (out : Output) (location first : Location) :
    (out.duplicate fixHints location first).Withheld :=
  ⟨rfl, rfl, rfl⟩

end Output

theorem Contract.code_ne_nil (c : Contract) : c.code ≠ [] := by
  simp [code]

theorem LookupTable.code_ne_nil (t : LookupTable) : t.code ≠ [] := by
  simp [code]

/-! ## Readings -/

theorem ClassDeclaration.opening_ne_nil_or (form : Node) :
    (read form).opening ≠ [] ∨ (read form).declaration? ≠ none := by
  unfold read
  rcases readClauses "class" form.arguments with ⟨clauses, stop⟩
  dsimp only
  split
  · exact .inl (by simp)
  · exact .inr nofun

theorem EnumDeclaration.opening_ne_nil_or (form : Node) :
    (read form).opening ≠ [] ∨ (read form).declaration? ≠ none := by
  unfold read
  rcases readClauses "enumeration" form.arguments with ⟨clauses, stop⟩
  dsimp only
  split
  · exact .inl (by simp)
  · exact .inr nofun

theorem Reading.diagnostics_ofPartial_ne_nil {α : Type} (rep : Reporter) (q : α → Bytes)
    (wrap : α → Declaration) {r : PartialReading α} (hr : r.opening ≠ [] ∨ r.declaration? ≠ none)
    (h : (ofPartial rep q wrap r).declaration? = none) :
    (ofPartial rep q wrap r).diagnostics ≠ [] := by
  rw [ofPartial_declaration?, Option.map_eq_none_iff] at h
  rw [ofPartial, h]
  simpa [h] using hr

/-- A form that declares nothing leaves a finding. -/
theorem Declaration.diagnostics_ne_nil (rep : Reporter) {form : Node}
    (h : (read rep form).declaration? = none) : (read rep form).diagnostics ≠ [] := by
  unfold read at h ⊢
  by_cases hclass : form.head = utf8 "class"
  · rw [if_pos hclass] at h ⊢
    exact Reading.diagnostics_ofPartial_ne_nil rep _ _ (ClassDeclaration.opening_ne_nil_or form) h
  by_cases henumeration : form.head = utf8 "enumeration"
  · rw [if_neg hclass, if_pos henumeration] at h ⊢
    exact Reading.diagnostics_ofPartial_ne_nil rep _ _ (EnumDeclaration.opening_ne_nil_or form) h
  · rw [if_neg hclass, if_neg henumeration]
    exact List.cons_ne_nil _ _

/-! ## Outputs of forms -/

/-- Whether a declaration is a class that asks for no equality: it is no wrapper and has no
marker. -/
def Declaration.IsPlainClass (d : Declaration) : Prop :=
  ∃ c, d = .classDeclaration c ∧ c.marker? = none ∧ ∀ wrapped, c.base ≠ .wrapper wrapped

namespace Declaration

variable {fixHints : Bool}

theorem success_checkReport_iff (fixHints : Bool) (d? : Option Declaration) :
    (checkReport fixHints d?).success = true ↔ (checkReport fixHints d?).errors = [] := by
  rcases d? with _ | ⟨d⟩ | d
  · exact ⟨fun _ => rfl, fun _ => rfl⟩
  · rw [checkReport, ClassDeclaration.check_eq]
    exact Report.success_ofList_iff_errors _
  · rw [checkReport, EnumDeclaration.check_eq]
    exact Report.success_ofList_iff_errors _

end Declaration

namespace ClassDeclaration

variable {fixHints : Bool} {d : ClassDeclaration}

/-- A class without errors asks for a contract unless it is no wrapper and has no marker. -/
theorem requestedContract?_eq_none_iff (h : (d.check fixHints).report.success = true) :
    d.requestedContract? = none ↔ d.marker? = none ∧ ∀ wrapped, d.base ≠ .wrapper wrapped := by
  rw [success_check_iff, violations] at h
  unfold requestedContract?
  cases hbase : d.base with
  | wrapper wrapped => simp
  | valueObject => cases d.marker? <;> simp
  | other =>
    cases hmarker : d.marker? with
    | none => simp
    | some l =>
      -- a marked class with another base is an error
      simp only [hbase, hmarker, List.forall_mem_singleton] at h
      cases h

end ClassDeclaration

namespace Output

variable {fixHints : Bool}

theorem name_ofReading (fixHints : Bool) (r : Reading) : (ofReading fixHints r).name = r.name := by
  unfold ofReading
  split
  · unfold ofContractCheck
    dsimp only
    split <;> rfl
  · unfold ofEnumerationCheck
    dsimp only
    split <;> rfl
  · rfl

/-- The errors of a form are those of its reading, and behind them those of the check. -/
theorem errors_ofReading (fixHints : Bool) {r : Reading}
    (herrors : ∀ d ∈ r.diagnostics, d.severity = .error) :
    (ofReading fixHints r).report.errors =
        r.diagnostics ++ (Declaration.checkReport fixHints r.declaration?).errors ∧
      ((ofReading fixHints r).report.success = true ↔
        (ofReading fixHints r).report.errors = []) := by
  rw [report_ofReading, Reading.report, Report.ofList_of_errors herrors, Report.merge]
  refine ⟨rfl, ?_⟩
  rw [Bool.and_eq_true, List.append_eq_nil_iff, Declaration.success_checkReport_iff,
    List.isEmpty_iff]

theorem ofContractCheck_of_none {name : Bytes} {reading : Report} {r : ContractCheck}
    (h : (reading.merge r.report).success = false ∨ r.contract? = none) :
    ofContractCheck name reading r = { name, report := reading.merge r.report } := by
  rcases h with h | h <;> simp [ofContractCheck, h]

theorem ofContractCheck_of_some {name : Bytes} {reading : Report} {r : ContractCheck}
    {k : Contract} (h : (reading.merge r.report).success = true) (hk : r.contract? = some k) :
    ofContractCheck name reading r =
      { name, report := reading.merge r.report, contract? := some k, code := k.code } := by
  simp [ofContractCheck, h, hk]

/-- With errors nothing is generated. -/
theorem withheld_of_failure {r : Reading} (h : (ofReading fixHints r).report.success = false) :
    (ofReading fixHints r).Withheld := by
  rw [report_ofReading] at h
  unfold ofReading
  rcases hd : r.declaration? with _ | ⟨d⟩ | d
  · exact ⟨rfl, rfl, rfl⟩
  · rw [hd, Declaration.checkReport] at h
    dsimp only
    rw [ofContractCheck_of_none (.inl h)]
    exact ⟨rfl, rfl, rfl⟩
  · rw [hd, Declaration.checkReport] at h
    dsimp only
    rw [ofEnumerationCheck_check]
    dsimp only
    rw [if_neg (by simp [h])]
    exact ⟨rfl, rfl, rfl⟩

/-- Without errors a declaration is generated, unless it is a class that asks for no equality. -/
theorem withheld_or_synthesized_of_success {r : Reading} {d : Declaration}
    (hd : r.declaration? = some d) (herrors : (ofReading fixHints r).report.errors = [])
    (h : (ofReading fixHints r).report.success = true) :
    d.IsPlainClass ∧ (ofReading fixHints r).Withheld ∨
      ¬ d.IsPlainClass ∧ (ofReading fixHints r).Synthesized := by
  rw [report_ofReading, hd] at h herrors
  unfold ofReading
  rw [hd]
  cases d with
  | classDeclaration d =>
    have hcheck : (d.check fixHints).report.success = true := (Bool.and_eq_true_iff.1 h).2
    have hcontract : (d.check fixHints).contract? = d.requestedContract? := by
      rw [ClassDeclaration.check_eq] at hcheck ⊢
      exact if_pos hcheck
    have hplain : (Declaration.classDeclaration d).IsPlainClass ↔ d.requestedContract? = none := by
      rw [d.requestedContract?_eq_none_iff hcheck]
      exact ⟨fun ⟨_, heq, h⟩ => by cases heq; exact h, fun h => ⟨d, rfl, h⟩⟩
    dsimp only
    cases hk : d.requestedContract? with
    | none =>
      rw [ofContractCheck_of_none (.inr (hcontract.trans hk))]
      exact .inl ⟨hplain.2 hk, ⟨rfl, rfl, rfl⟩⟩
    | some k =>
      rw [ofContractCheck_of_some h (hcontract.trans hk)]
      refine .inr ⟨fun h => ?_, ⟨herrors, k.code_ne_nil, .inl ⟨k, rfl, rfl, rfl⟩⟩⟩
      rw [hplain.1 h] at hk
      cases hk
  | enumeration d =>
    dsimp only
    rw [ofEnumerationCheck_check]
    dsimp only [Declaration.checkReport] at h herrors ⊢
    rw [if_pos h]
    exact .inr ⟨fun ⟨_, heq, _⟩ => (by cases heq),
      ⟨herrors, d.table.code_ne_nil, .inr ⟨d.table, rfl, rfl, rfl⟩⟩⟩

/-- What is generated for a form is decided by its errors and by what it declares. -/
theorem withheld_or_synthesized (fixHints : Bool) (form : Node) :
    (ofForm fixHints form).report.errors ≠ [] ∧ (ofForm fixHints form).Withheld ∨
      (ofForm fixHints form).report.errors = [] ∧
        ∃ d, (Declaration.read { fixHints } form).declaration? = some d ∧
          (d.IsPlainClass ∧ (ofForm fixHints form).Withheld ∨
            ¬ d.IsPlainClass ∧ (ofForm fixHints form).Synthesized) := by
  rw [ofForm_eq_ofReading]
  obtain ⟨heq, hsuccess⟩ := errors_ofReading fixHints
    fun _ => Declaration.severity_of_mem_diagnostics { fixHints } form
  by_cases herrors : (ofReading fixHints (Declaration.read { fixHints } form)).report.errors = []
  · refine .inr ⟨herrors, ?_⟩
    cases hd : (Declaration.read { fixHints } form).declaration? with
    | none =>
      rw [heq, List.append_eq_nil_iff] at herrors
      exact (Declaration.diagnostics_ne_nil _ hd herrors.1).elim
    | some d =>
      exact ⟨d, rfl, withheld_or_synthesized_of_success hd herrors (hsuccess.2 herrors)⟩
  -- a report with errors has failed, and what is generated goes by that
  · refine .inl ⟨herrors, withheld_of_failure ?_⟩
    rw [← hsuccess] at herrors
    simpa using herrors

theorem errors_ofForm (fixHints : Bool) (form : Node) :
    (ofForm fixHints form).report.errors =
      (Declaration.read { fixHints } form).diagnostics ++ (Declaration.checkReport fixHints
        (Declaration.read { fixHints } form).declaration?).errors :=
  (errors_ofReading fixHints fun _ => Declaration.severity_of_mem_diagnostics _ form).1

/-- What is read leaves errors only, so the warnings are those of the check. -/
theorem warnings_ofForm (fixHints : Bool) (form : Node) :
    (ofForm fixHints form).report.warnings = (Declaration.checkReport fixHints
      (Declaration.read { fixHints } form).declaration?).warnings := by
  rw [ofForm_eq_ofReading, report_ofReading, Reading.report,
    Report.ofList_of_errors fun _ => Declaration.severity_of_mem_diagnostics _ form]
  rfl

theorem errors_duplicate (fixHints : Bool) (out : Output) (location first : Location) :
    (out.duplicate fixHints location first).report.errors ≠ [] := by
  show (out.report.errors ++ [_]) ≠ []
  simp

end Output

/-! ## Results -/

/-- Whether an error is found in the form at place `i`: when it is read, when what it declares is
checked, or because of an earlier form with the same name. -/
inductive FaultyAt (fixHints : Bool) (forms : List Node) (i : Nat) (form : Node) : Prop where
  | reading (h : (Declaration.read { fixHints } form).diagnostics ≠ [])
  | check (h : (Declaration.checkReport fixHints
      (Declaration.read { fixHints } form).declaration?).errors ≠ [])
  | name (hname : (Declaration.read { fixHints } form).name ≠ [])
      (h : (Declaration.read { fixHints } form).name ∈
        (forms.take i).map fun g => (Declaration.read { fixHints } g).name)

theorem faultyAt_iff {fixHints : Bool} {forms : List Node} {i : Nat} {form : Node} :
    FaultyAt fixHints forms i form ↔ (Output.ofForm fixHints form).report.errors ≠ [] ∨
      ((Output.ofForm fixHints form).name ≠ [] ∧ (Output.ofForm fixHints form).name ∈
        (forms.take i).map fun g => (Output.ofForm fixHints g).name) := by
  have hname (g : Node) :
      (Output.ofForm fixHints g).name = (Declaration.read { fixHints } g).name :=
    Output.name_ofReading fixHints _
  simp only [hname, Output.errors_ofForm, ne_eq, List.append_eq_nil_iff,
    Decidable.not_and_iff_or_not]
  constructor
  · rintro (h | h | ⟨hne, h⟩)
    · exact .inl (.inl h)
    · exact .inl (.inr h)
    · exact .inr ⟨hne, h⟩
  · rintro ((h | h) | ⟨hne, h⟩)
    · exact .reading h
    · exact .check h
    · exact .name hne h

namespace Compiler

/-- Without a cache, whatever the schedule, the result of a text has one declaration for each form.
It comes with one contract or table and its code, or with nothing. It has errors exactly if one of
the stages found some, and then nothing is generated; and without errors nothing is generated only
for a class that asks for no equality. -/
theorem synthesis_of_read {c : Compiler} (hcache : c.options.cache = false) {text : Bytes}
    {m : Node} (hread : Node.read text = .ok m) :
    c.Yields text (c.compileText text).1 ∧ ∀ result, c.Yields text result →
      ∃ r, result = .ok r ∧ r.declarations.length = (c.formsOf m).length ∧
        ∀ i form, (c.formsOf m)[i]? = some form → ∃ out, r.declarations[i]? = some out ∧
          (out.Withheld ∨ out.Synthesized) ∧
          (out.report.errors ≠ [] → out.Withheld) ∧
          (FaultyAt c.options.fixHints (c.formsOf m) i form ↔ out.report.errors ≠ []) ∧
          (out.report.errors = [] → (out.Withheld ↔
            ∃ d, (Declaration.read { fixHints := c.options.fixHints } form).declaration? = some d ∧
              d.IsPlainClass)) := by
  refine ⟨yields_compileText c text, fun result h => ?_⟩
  rw [eq_plainResult_of_yields hcache h, plainResult, hread]
  refine ⟨_, rfl, ?_, fun i form hi => ?_⟩
  · simp [ModuleResult.ofOutputs, ModuleResult.length_markDuplicates, formsOf]
  · rw [faultyAt_iff]
    rcases ModuleResult.getElem?_declarations_ofOutputs c.options.fixHints
      (moduleDeclarations { fixHints := c.options.fixHints } m).1
      (Output.ofForm c.options.fixHints) hi with ⟨hrepeated, first, hout⟩ | ⟨hrepeated, hout⟩
    · have hwithheld := Output.withheld_duplicate c.options.fixHints
        (Output.ofForm c.options.fixHints form) form.location first
      have herrors := Output.errors_duplicate c.options.fixHints
        (Output.ofForm c.options.fixHints form) form.location first
      exact ⟨_, hout, .inl hwithheld, fun _ => hwithheld,
        ⟨fun _ => herrors, fun _ => .inr hrepeated⟩, fun h => absurd h herrors⟩
    · refine ⟨_, hout, ?_⟩
      rw [or_iff_left hrepeated]
      rcases Output.withheld_or_synthesized c.options.fixHints form with
        ⟨herrors, hwithheld⟩ | ⟨herrors, d, hd, ⟨hplain, hwithheld⟩ | ⟨hplain, hsynthesized⟩⟩
      · exact ⟨.inl hwithheld, fun _ => hwithheld, Iff.rfl, fun h => absurd h herrors⟩
      · exact ⟨.inl hwithheld, fun _ => hwithheld, Iff.rfl, fun _ =>
          ⟨fun _ => ⟨d, hd, hplain⟩, fun _ => hwithheld⟩⟩
      · refine ⟨.inr hsynthesized, fun h => absurd herrors h, Iff.rfl, fun _ =>
          ⟨fun h => (h.not_synthesized hsynthesized).elim, ?_⟩⟩
        rintro ⟨e, he, hplain'⟩
        rw [hd, Option.some.injEq] at he
        exact absurd (he ▸ hplain') hplain

/-- A wrapper, a value object with a warning, an enumeration, a class that asks for nothing, a
marked class with another base, and a second declaration of a name. -/
def assorted : Bytes :=
  utf8 "(module (class :name W :base (wrapper i32)) (class :name V :partial true " ++
    utf8 ":base value-object :attrs [value-object] :members [(field :name a :type i32)]) " ++
    utf8 "(enumeration :name E :partial true) (class :name P) " ++
    utf8 "(class :name M :attrs [value-object]) (enumeration :name W :partial true))"

theorem synthesis_assorted :
    ∃ r, (compileText ⟨{ cache := false, jobs := 2 }, .empty⟩ assorted).1 = .ok r ∧
      (∀ out ∈ r.declarations, out.Withheld ∨ out.Synthesized) ∧
      r.declarations.map (fun out =>
          (out.contract?.isSome, out.table?.isSome, out.report.errors.length)) =
        [(true, false, 0), (true, false, 0), (false, true, 0), (false, false, 0),
          (false, false, 1), (false, false, 1)] := by
  have hkinds : ((compileText ⟨{ cache := false, jobs := 2 }, .empty⟩ assorted).1.toOption.map
      fun r => r.declarations.map fun out =>
        (out.contract?.isSome, out.table?.isSome, out.report.errors.length)) =
        some [(true, false, 0), (true, false, 0), (false, true, 0), (false, false, 0),
          (false, false, 1), (false, false, 1)] := by decide +kernel
  cases hread : Node.read assorted with
  | error e =>
    have hreads : (Node.read assorted).toOption.isSome = true := by decide +kernel
    rw [hread] at hreads
    cases hreads
  | ok m =>
    obtain ⟨hyields, hall⟩ := synthesis_of_read (c := ⟨{ cache := false, jobs := 2 }, .empty⟩) rfl
      hread
    obtain ⟨r, hr, hlength, hout⟩ := hall _ hyields
    rw [hr] at hkinds
    refine ⟨r, hr, fun out hmem => ?_, Option.some.inj hkinds⟩
    obtain ⟨i, hi, rfl⟩ := List.mem_iff_getElem.1 hmem
    obtain ⟨out, hget, hcases, -⟩ := hout i _ (List.getElem?_eq_getElem (hlength ▸ hi))
    rw [List.getElem?_eq_getElem hi, Option.some.injEq] at hget
    rwa [hget]

end Compiler

end Equate
