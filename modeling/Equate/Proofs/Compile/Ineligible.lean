import Equate.Proofs.Compile.Synthesis
import Equate.Proofs.Contract.Entries
/-!
# Strategies on members that cannot carry one

Methods and computed properties cannot carry a strategy. A class other than a wrapper is checked in
one of three ways, and each of them reports such a member or the class as a whole, with one gap: the
check of a class without a marker passes over methods. So a strategy on a method may go unnoticed
there (`errors_eq_nil_iff_of_ineligible`). Nothing is generated for the class in any case.
-/

namespace Equate

namespace ClassDeclaration

variable {fixHints : Bool} {d : ClassDeclaration} {m : Member}

/-! ## The ways of the check -/

theorem violations_of_unmarked (hbase : ∀ wrapped, d.base ≠ .wrapper wrapped)
    (hmarker : d.marker? = none) : d.violations = d.unmarkedViolations := by
  rw [violations, hmarker]
  cases h : d.base with
  | wrapper wrapped => exact absurd h (hbase wrapped)
  | valueObject | other => rfl

theorem violations_of_other (hmarker : d.marker?.isSome = true) (hbase : d.base = .other) :
    d.violations = [.contractWithoutBaseShape] := by
  obtain ⟨l, hl⟩ := Option.isSome_iff_exists.1 hmarker
  rw [violations, hbase, hl]

/-- Without a marker each strategy on a member is reported, unless the member is a method. -/
theorem mem_unmarkedViolations_iff {v : Violation} :
    v ∈ d.unmarkedViolations ↔
      ∃ o ∈ d.members, o.kind ≠ .method ∧ ∃ a ∈ o.strategies, v = .strategyOutsideContract o a := by
  simp only [unmarkedViolations, List.mem_flatMap, List.mem_filter, bne_iff_ne, List.mem_map,
    and_assoc, @eq_comm _ _ v]

theorem diagnostic_mem_errors {v : Violation} (hv : v ∈ d.violations)
    (herror : v.rule.severity = .error) :
    v.diagnostic ⟨d.qualifiedName, fixHints⟩ d ∈ (d.check fixHints).report.errors := by
  rw [report_check, Report.ofList_eq, Violation.filter_severity]
  exact List.mem_map_of_mem (List.mem_filter.2 ⟨hv, by rw [herror]; rfl⟩)

theorem errors_check_eq_nil_iff :
    (d.check fixHints).report.errors = [] ↔ ∀ v ∈ d.violations, v.rule.severity = .warning := by
  rw [← success_check_iff, report_check, Report.success_ofList_iff_errors]

/-- A class that is no wrapper gets a contract only if it is marked and there are no errors. -/
theorem marked_of_contract? {c : Contract} (hbase : ∀ wrapped, d.base ≠ .wrapper wrapped)
    (h : (d.check fixHints).contract? = some c) :
    d.marker?.isSome = true ∧ (d.check fixHints).report.errors = [] := by
  obtain ⟨hsuccess, hrequested⟩ := contract?_check_eq_some_iff.1 h
  rcases requestedContract?_cases hrequested with ⟨wrapped, hwrapper, -⟩ | ⟨hmarker, -⟩
  · exact absurd hwrapper (hbase wrapped)
  · exact ⟨hmarker, errors_check_eq_nil_iff.2 (success_check_iff.1 hsuccess)⟩

theorem withheld_of_contract?_eq_none {form : Node}
    (hread : (Declaration.read { fixHints } form).declaration? = some (.classDeclaration d))
    (h : (d.check fixHints).contract? = none) : (Output.ofForm fixHints form).Withheld := by
  unfold Output.ofForm
  dsimp only
  rw [hread]
  dsimp only
  rw [Output.ofContractCheck_of_none (.inr h)]
  exact ⟨rfl, rfl, rfl⟩

/-! ## Members that cannot carry a strategy -/

/-- In a value object such a member is reported. -/
theorem strategyOnUnsupportedMember_mem (hmarker : d.marker?.isSome = true)
    (hbase : d.base = .valueObject) (hm : m ∈ d.members) (hstatic : m.isStatic = false)
    (hkind : m.kind = .method ∨ m.computed = true) (hstrategies : m.strategies ≠ []) :
    .strategyOnUnsupportedMember m ∈ d.violations := by
  obtain ⟨before, after, hmembers⟩ := List.append_of_mem hm
  rw [violations_of_valueObject hmarker hbase]
  exact mem_valueObjectViolations_of_breaks hmembers
    (.strategyOnUnsupportedMember hstatic (Member.eligible_eq_false_iff.2 hkind) hstrategies)

/-- A class without a marker is reported for each strategy on a member that is no method. -/
theorem strategyOutsideContract_mem (hbase : ∀ wrapped, d.base ≠ .wrapper wrapped)
    (hmarker : d.marker? = none) (hm : m ∈ d.members) (hmethod : m.kind ≠ .method)
    {a : PlacedStrategy} (ha : a ∈ m.strategies) :
    .strategyOutsideContract m a ∈ d.violations := by
  rw [violations_of_unmarked hbase hmarker]
  exact mem_unmarkedViolations_iff.2 ⟨m, hm, hmethod, a, ha, rfl⟩

/-- An unmarked class is free of errors if all strategies are on methods. -/
theorem errors_eq_nil_iff_of_unmarked (hbase : ∀ wrapped, d.base ≠ .wrapper wrapped)
    (hmarker : d.marker? = none) :
    (d.check fixHints).report.errors = [] ↔
      ∀ o ∈ d.members, o.kind ≠ .method → o.strategies = [] := by
  rw [errors_check_eq_nil_iff]
  constructor
  · intro hwarnings o ho hmethod
    refine List.eq_nil_iff_forall_not_mem.2 fun a ha => ?_
    cases hwarnings _ (strategyOutsideContract_mem hbase hmarker ho hmethod ha)
  · intro hnone v hv
    rw [violations_of_unmarked hbase hmarker] at hv
    obtain ⟨o, ho, hmethod, a, ha, -⟩ := mem_unmarkedViolations_iff.1 hv
    rw [hnone o ho hmethod] at ha
    cases ha

/-- In a class that is no wrapper, a strategy on a method or a computed property is an error. There
is one exception: an unmarked class is free of errors if all its strategies are on methods. With or
without an error there is no contract, and nothing is generated for the class. -/
theorem errors_eq_nil_iff_of_ineligible (fixHints : Bool) {d : ClassDeclaration} {m : Member}
    (hbase : ∀ wrapped, d.base ≠ .wrapper wrapped) (hm : m ∈ d.members)
    (hstatic : m.isStatic = false) (hkind : m.kind = .method ∨ m.computed = true)
    (hstrategies : m.strategies ≠ []) :
    let errors := (d.check fixHints).report.errors
    let diagnostic (v : Violation) := v.diagnostic ⟨d.qualifiedName, fixHints⟩ d
    (errors = [] ↔
      d.marker? = none ∧ ∀ o ∈ d.members, o.kind ≠ .method → o.strategies = []) ∧
    (d.marker?.isSome = true → d.base = .valueObject →
      diagnostic (.strategyOnUnsupportedMember m) ∈ errors) ∧
    (d.marker?.isSome = true → d.base = .other → diagnostic .contractWithoutBaseShape ∈ errors) ∧
    (d.marker? = none → m.kind ≠ .method →
      ∀ a ∈ m.strategies, diagnostic (.strategyOutsideContract m a) ∈ errors) ∧
    (d.check fixHints).contract? = none ∧
    ∀ form, (Declaration.read { fixHints } form).declaration? = some (.classDeclaration d) →
      (Output.ofForm fixHints form).Withheld := by
  intro errors diagnostic
  have hvalueObject (hmarker : d.marker?.isSome = true) (hbase : d.base = .valueObject) :
      diagnostic (.strategyOnUnsupportedMember m) ∈ errors :=
    diagnostic_mem_errors
      (strategyOnUnsupportedMember_mem hmarker hbase hm hstatic hkind hstrategies) rfl
  have hother (hmarker : d.marker?.isSome = true) (hbase : d.base = .other) :
      diagnostic .contractWithoutBaseShape ∈ errors :=
    diagnostic_mem_errors (by rw [violations_of_other hmarker hbase, List.mem_singleton]) rfl
  have hunmarked (hmarker : d.marker? = none) (hmethod : m.kind ≠ .method) :
      ∀ a ∈ m.strategies, diagnostic (.strategyOutsideContract m a) ∈ errors := fun _ ha =>
    diagnostic_mem_errors (strategyOutsideContract_mem hbase hmarker hm hmethod ha) rfl
  have hmarked (hmarker : d.marker?.isSome = true) : errors ≠ [] := by
    cases h : d.base with
    | wrapper wrapped => exact absurd h (hbase wrapped)
    | valueObject => exact List.ne_nil_of_mem (hvalueObject hmarker h)
    | other => exact List.ne_nil_of_mem (hother hmarker h)
  have hcontract : (d.check fixHints).contract? = none := by
    refine Option.eq_none_iff_forall_ne_some.2 fun c hc => ?_
    obtain ⟨hmarker, herrors⟩ := marked_of_contract? hbase hc
    exact hmarked hmarker herrors
  refine ⟨?_, hvalueObject, hother, hunmarked, hcontract, fun form hread =>
    withheld_of_contract?_eq_none hread hcontract⟩
  cases hmarker : d.marker? with
  | none => rw [errors_eq_nil_iff_of_unmarked hbase hmarker, eq_self, true_and]
  | some l => exact iff_of_false (hmarked (by rw [hmarker]; rfl)) nofun

/-- A class whose only strategy is on a method. -/
def sketchText : Bytes :=
  utf8 "(class :name A :members [(method :name describe :equality (include))])"

def sketchMethod : Member :=
  { name := "describe"
    kind := .method
    strategies := [⟨.include none, ⟨1, 59⟩⟩]
    location := ⟨1, 26⟩ }

def sketch : ClassDeclaration :=
  { name := "A"
    members := [sketchMethod]
    location := ⟨1, 1⟩ }

/-- The strategy is an error as soon as the class is marked. -/
theorem errors_marked_sketch :
    let d := { sketch with marker? := some ⟨1, 1⟩ }
    let d' := { d with base := .valueObject }
    sketchMethod ∈ d.members ∧ sketchMethod.strategies ≠ [] ∧
      (d.check true).report.errors ≠ [] ∧ (d.check true).contract? = none ∧
      sketchMethod ∈ d'.members ∧ (d'.check true).report.errors ≠ [] := by
  intro d d'
  have hmethod : sketchMethod ∈ d.members := List.mem_cons_self
  have hmethod' : sketchMethod ∈ d'.members := List.mem_cons_self
  have hbase : ∀ wrapped, d.base ≠ .wrapper wrapped := nofun
  have hbase' : ∀ wrapped, d'.base ≠ .wrapper wrapped := nofun
  obtain ⟨hother, -, -, -, hcontract, -⟩ :=
    errors_eq_nil_iff_of_ineligible true hbase hmethod rfl (.inl rfl) nofun
  obtain ⟨-, hvalueObject, -⟩ :=
    errors_eq_nil_iff_of_ineligible true hbase' hmethod' rfl (.inl rfl) nofun
  refine ⟨hmethod, nofun, fun h => ?_, hcontract, hmethod',
    List.ne_nil_of_mem (hvalueObject rfl rfl)⟩
  cases (hother.1 h).1

/-- Without a marker nothing is reported. -/
theorem errors_unmarked_sketch :
    (Node.read sketchText).toOption.map (fun form => (Declaration.read {} form).diagnostics) =
        some [] ∧
      (Node.read sketchText).toOption.map (fun form => (Declaration.read {} form).declaration?) =
        some (some (.classDeclaration sketch)) ∧
      sketch.base = .other ∧ sketchMethod ∈ sketch.members ∧ sketchMethod.isStatic = false ∧
      sketchMethod.kind = .method ∧ sketchMethod.strategies ≠ [] ∧
      (sketch.check true).report.errors = [] := by
  rw [← and_assoc]
  refine ⟨?_, rfl, List.mem_cons_self, rfl, rfl, nofun, rfl⟩
  decide

end ClassDeclaration

end Equate
