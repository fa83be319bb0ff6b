import Equate.Proofs.Declaration.Relocation
import Equate.Proofs.Enumeration.Pass
/-!
# Checking relocated enumerations

A relocated enumeration has the same table, and the same is wrong with it, with its constants at
their new places (`check_relocate`).
-/

namespace Equate

variable (place : Location → Location)

/-- The constant at its new place. -/
def LiteralConstant.relocate (c : LiteralConstant) : LiteralConstant :=
  { c with declared := c.declared.relocate place }

/-- A violation by the constants at their new places. -/
def EnumViolation.relocate : EnumViolation → EnumViolation
  | .notExtensible => .notExtensible
  | .duplicateValue c first => .duplicateValue (c.relocate place) (first.relocate place)
  | .duplicateName c first => .duplicateName (c.relocate place) (first.relocate place)

/-- What is reported where everything is at no place points to no place. -/
theorem EnumViolation.diagnostic_relocate (rep : Reporter) (d : EnumDeclaration)
    (v : EnumViolation) :
    (v.relocate Location.forget).diagnostic rep (d.relocate Location.forget) =
      (v.diagnostic rep d).relocate Location.forget := by
  cases v <;> rfl

namespace EnumDeclaration

variable (d : EnumDeclaration)

theorem literals_relocate :
    (d.relocate place).literals = d.literals.map (LiteralConstant.relocate place) := by
  simp only [literals, relocate, List.filterMap_map, List.map_filterMap]
  congr 1
  funext c
  obtain ⟨constant, literal?, position, location⟩ := c
  cases literal? <;> rfl

theorem literalViolations_relocate (earlier : List LiteralConstant) (c : LiteralConstant) :
    literalViolations (earlier.map (LiteralConstant.relocate place)) (c.relocate place) =
      (literalViolations earlier c).map (EnumViolation.relocate place) := by
  have hvalue : (fun o : LiteralConstant => o.value == c.value) ∘ LiteralConstant.relocate place =
      fun o => o.value == c.value := rfl
  have hname : (fun o : LiteralConstant => o.name == c.name) ∘ LiteralConstant.relocate place =
      fun o => o.name == c.name := rfl
  have hcvalue : (c.relocate place).value = c.value := rfl
  have hcname : (c.relocate place).name = c.name := rfl
  simp only [literalViolations, LiteralConstant.clashes, hcvalue, hcname, List.find?_map, hvalue,
    hname, List.map_append]
  congr 1
  · cases earlier.find? fun o => o.value == c.value <;> rfl
  · cases earlier.find? fun o => o.name == c.name <;> rfl

theorem violations_relocate :
    (d.relocate place).violations = d.violations.map (EnumViolation.relocate place) := by
  have hextensible : (d.relocate place).extensible = d.extensible := rfl
  simp only [violations, literals_relocate, hextensible, List.map_append,
    apply_ite (List.map (EnumViolation.relocate place)), List.map_nil, List.map_cons,
    List.zipIdx_map, List.flatMap_map, List.map_flatMap, ← List.map_take, EnumViolation.relocate]
  congr 2
  funext e
  exact literalViolations_relocate place _ e.1

/-- Tables tell no places. -/
theorem table_relocate : (d.relocate place).table = d.table := by
  simp only [table, literals_relocate, List.map_map]
  simp only [relocate, List.map_map]
  rfl

theorem check_relocate (fixHints : Bool) :
    (d.relocate Location.forget).check fixHints =
      ⟨(d.check fixHints).report.map (Diagnostic.relocate Location.forget),
        (d.check fixHints).table?⟩ := by
  have hdiagnostics : (d.relocate Location.forget).violations.map
        (EnumViolation.diagnostic ⟨d.qualifiedName, fixHints⟩ (d.relocate Location.forget)) =
      (d.violations.map (EnumViolation.diagnostic ⟨d.qualifiedName, fixHints⟩ d)).map
        (Diagnostic.relocate Location.forget) := by
    rw [violations_relocate, List.map_map, List.map_map]
    exact List.map_congr_left fun v _ => v.diagnostic_relocate _ d
  have hname : (d.relocate Location.forget).qualifiedName = d.qualifiedName := rfl
  simp only [check_eq, hname, hdiagnostics, table_relocate,
    ← Report.map_ofList (f := Diagnostic.relocate Location.forget) fun _ => rfl]
  rfl

end EnumDeclaration

end Equate
