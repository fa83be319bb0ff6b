import Equate.Enumeration.Check
import Equate.Proofs.Diagnostic.Report
import Equate.Proofs.Grouping
/-!
# What the check of an enumeration comes to

The pass over the constants carries maps along. Here the same is said without them: what is wrong
with a literal constant is told from the ones in front of it (`literalViolations`), and the table
lists all literal constants (`table`). The pass arrives at just that (`gathers_constantPass`,
`check_eq`). A constant that it leaves out of the table is one with an error, and then there is no
table.
-/

namespace Equate

namespace EnumDeclaration

/-- The constants with literal arguments, in order. -/
def literals (d : EnumDeclaration) : List LiteralConstant :=
  d.constants.filterMap LiteralConstant.ofDeclaration?

/-- What is wrong with a literal constant, given the literal constants before it. -/
def literalViolations (earlier : List LiteralConstant) (c : LiteralConstant) :
    List EnumViolation :=
  c.clashes (earlier.find? fun o => o.value == c.value) (earlier.find? fun o => o.name == c.name)

/-- What is wrong with an enumeration. -/
def violations (d : EnumDeclaration) : List EnumViolation :=
  let literals := d.literals
  (if d.extensible then [] else [.notExtensible]) ++
  literals.zipIdx.flatMap fun (c, i) => literalViolations (literals.take i) c

/-- The table of an enumeration. -/
def table (d : EnumDeclaration) : LookupTable :=
  { typeName := d.name
    ns := d.ns
    entries := d.literals.map (LiteralConstant.entry d)
    constants := d.constants.map ConstantDeclaration.constant }

end EnumDeclaration

/-! ## The pass -/

variable {d : EnumDeclaration} {before : List ConstantDeclaration} {c : ConstantDeclaration}
  {p : ConstantPass}

namespace ConstantPass

open EnumDeclaration

/-- What a pass has gathered behind the constants `before`. -/
structure Gathers (d : EnumDeclaration) (before : List ConstantDeclaration) (p : ConstantPass) :
    Prop where
  violations : p.violations = (if d.extensible then [] else [.notExtensible]) ++
    (before.filterMap LiteralConstant.ofDeclaration?).zipIdx.flatMap fun (c, i) =>
      literalViolations (d.literals.take i) c
  values : LeadsToFirst LiteralConstant.value id
    (before.filterMap LiteralConstant.ofDeclaration?) p.values
  names : LeadsToFirst LiteralConstant.name id
    (before.filterMap LiteralConstant.ofDeclaration?) p.names
  entries : p.violations = [] → p.entries =
    (before.filterMap LiteralConstant.ofDeclaration?).map (LiteralConstant.entry d)
  constants : p.constants = before.map ConstantDeclaration.constant

namespace Gathers

/-- The maps answer for the literal constants in front. -/
theorem literalViolations_eq {after : List ConstantDeclaration}
    (h : d.constants = before ++ c :: after) (hp : Gathers d before p) (literal : LiteralConstant) :
    literalViolations
        (d.literals.take (before.filterMap LiteralConstant.ofDeclaration?).length) literal =
      literal.clashes p.values[literal.value]? p.names[literal.name]? := by
  rw [literals, h, List.filterMap_append, List.take_left, literalViolations, hp.values, hp.names,
    Option.map_id_fun, id, id]

theorem skip (hp : Gathers d before p) (hc : LiteralConstant.ofDeclaration? c = none) :
    Gathers d (before ++ [c]) (p.add d c) where
  violations := by simp [ConstantPass.add, hc, hp.violations]
  values := by simpa [ConstantPass.add, hc] using hp.values
  names := by simpa [ConstantPass.add, hc] using hp.names
  entries hnone := by
    simpa [ConstantPass.add, hc] using hp.entries (by simpa [ConstantPass.add, hc] using hnone)
  constants := by simp [ConstantPass.add, hc, hp.constants]

theorem enter {literal : LiteralConstant} {after : List ConstantDeclaration}
    (h : d.constants = before ++ c :: after) (hp : Gathers d before p)
    (hc : LiteralConstant.ofDeclaration? c = some literal) :
    Gathers d (before ++ [c]) (p.add d c) where
  violations := by
    simp [ConstantPass.add, ConstantPass.enter, hc, hp.violations, hp.literalViolations_eq h,
      List.zipIdx_append]
  values := by simpa [ConstantPass.add, ConstantPass.enter, hc] using hp.values.insertIfNew literal
  names := by simpa [ConstantPass.add, ConstantPass.enter, hc] using hp.names.insertIfNew literal
  entries hnone := by
    have hadd : (p.add d c).violations =
        p.violations ++ literal.clashes p.values[literal.value]? p.names[literal.name]? := by
      simp [ConstantPass.add, ConstantPass.enter, hc]
    rw [hadd] at hnone
    obtain ⟨hnone, hfound⟩ := List.append_eq_nil_iff.1 hnone
    simp [ConstantPass.add, ConstantPass.enter, hc, hfound, hp.entries hnone]
  constants := by simp [ConstantPass.add, ConstantPass.enter, hc, hp.constants]

theorem add {after : List ConstantDeclaration} (h : d.constants = before ++ c :: after)
    (hp : Gathers d before p) : Gathers d (before ++ [c]) (p.add d c) := by
  cases hc : LiteralConstant.ofDeclaration? c with
  | none => exact hp.skip hc
  | some literal => exact hp.enter h hc

/-- The constants are taken in one after another. -/
theorem foldl {after : List ConstantDeclaration} (h : d.constants = before ++ after)
    (hp : Gathers d [] p) : Gathers d before (before.foldl (ConstantPass.add d) p) := by
  induction before using List.reverseRecOn generalizing after with
  | nil => exact hp
  | append_singleton before c ih =>
    rw [List.append_assoc] at h
    rw [List.foldl_append]
    exact (ih h).add h

end Gathers

end ConstantPass

namespace EnumDeclaration

theorem gathers_constantPass (d : EnumDeclaration) : d.constantPass.Gathers d d.constants :=
  .foldl (List.append_nil _).symm ⟨by simp, .empty, .empty, fun _ => rfl, rfl⟩

theorem violations_constantPass (d : EnumDeclaration) : d.constantPass.violations = d.violations :=
  d.gathers_constantPass.violations

/-- Whatever is wrong with an enumeration is an error. -/
theorem severity_diagnostic (rep : Reporter) (v : EnumViolation) :
    (v.diagnostic rep d).severity = .error := by
  cases v <;> rfl

/-- A check reports what is wrong with the enumeration, and returns its table unless there is an
error. -/
theorem check_eq (fixHints : Bool) (d : EnumDeclaration) :
    d.check fixHints =
      let report :=
        Report.ofList (d.violations.map (EnumViolation.diagnostic ⟨d.qualifiedName, fixHints⟩ d))
      ⟨report, if report.success then some d.table else none⟩ := by
  rw [check]
  dsimp only
  rw [violations_constantPass]
  congr 1
  refine ite_congr rfl (fun hsuccess => ?_) fun _ => rfl
  have hnone : d.violations = [] := by
    rw [Report.success_ofList_iff, List.forall_mem_map] at hsuccess
    refine List.eq_nil_iff_forall_not_mem.2 fun v hv => ?_
    cases (severity_diagnostic _ v).symm.trans (hsuccess v hv)
  have hentries := d.gathers_constantPass.entries (d.violations_constantPass.trans hnone)
  rw [hentries, d.gathers_constantPass.constants, table, literals]

end EnumDeclaration

end Equate
