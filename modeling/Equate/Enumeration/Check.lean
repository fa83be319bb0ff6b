import Equate.Diagnostic.Basic
import Equate.Enumeration.Table
/-!
# Checking enumerations

Among the constants with literal arguments no value and no name may occur twice. Constants whose
arguments are not literals are left to the generated code, which checks them when it runs.
-/

namespace Equate

/-- A literal constant with its value and name. -/
structure LiteralConstant where
  declared : ConstantDeclaration
  value : Int64
  name : Bytes
  deriving DecidableEq, Repr

def LiteralConstant.ofDeclaration? (c : ConstantDeclaration) : Option LiteralConstant :=
  c.literal?.map fun (value, name) => ⟨c, value, name⟩

/-- What can be wrong with an enumeration. -/
inductive EnumViolation where
  | notExtensible
  | duplicateValue (c first : LiteralConstant)
  | duplicateName (c first : LiteralConstant)
  deriving DecidableEq, Repr

namespace EnumViolation

def rule : EnumViolation → Rule
  | .notExtensible => .enumNotExtensible
  | .duplicateValue _ _ => .duplicateEnumValue
  | .duplicateName _ _ => .duplicateEnumName

/-- "on 'B' and 'A'", the later constant first. -/
def onBoth (c first : LiteralConstant) : Bytes :=
  utf8 " on '" ++ c.declared.constant ++ utf8 "' and '" ++ first.declared.constant ++ utf8 "'"

/-- What is wrong, in enumeration `d`. -/
def message (d : EnumDeclaration) : EnumViolation → Bytes
  | .notExtensible =>
    utf8 "enumeration '" ++ d.name ++ utf8 "' must be declared partial to enable generation"
  | .duplicateValue c first => utf8 "enumeration '" ++ d.name ++ utf8 "' has duplicate value " ++
      Bytes.ofInt c.value.toInt ++ onBoth c first
  | .duplicateName c first => utf8 "enumeration '" ++ d.name ++ utf8 "' has duplicate name \"" ++
      c.name ++ utf8 "\"" ++ onBoth c first

def hint : EnumViolation → Bytes
  | .notExtensible => "add :partial true"
  | .duplicateValue _ _ => "give each constant a unique value"
  | .duplicateName _ _ => "give each constant a unique name"

def location (d : EnumDeclaration) : EnumViolation → Location
  | .notExtensible => d.location
  | .duplicateValue c _ | .duplicateName c _ => c.declared.location

def notes : EnumViolation → List Note
  | .notExtensible => []
  | .duplicateValue c first =>
    [⟨utf8 "'" ++ first.declared.constant ++ utf8 "' first uses value " ++
      Bytes.ofInt c.value.toInt, first.declared.location⟩]
  | .duplicateName c first =>
    [⟨utf8 "'" ++ first.declared.constant ++ utf8 "' first uses name \"" ++ c.name ++ utf8 "\"",
      first.declared.location⟩]

def fixes (d : EnumDeclaration) : EnumViolation → List Fix
  | .notExtensible => [⟨"make-partial", utf8 "Make '" ++ d.name ++ utf8 "' partial"⟩]
  | _ => []

/-- The diagnostic for a violation in enumeration `d`. -/
def diagnostic (rep : Reporter) (d : EnumDeclaration) (v : EnumViolation) : Diagnostic :=
  rep.diagnose v.rule (v.message d) v.hint (v.location d) v.notes (v.fixes d)

end EnumViolation

/-! ## The pass over the constants -/

namespace LiteralConstant

/-- What is wrong with a literal constant, where `ofValue?` and `ofName?` are the first ones in front
of it with its value and with its name. -/
def clashes (ofValue? ofName? : Option LiteralConstant) (c : LiteralConstant) :
    List EnumViolation :=
  (ofValue?.map (.duplicateValue c)).toList ++ (ofName?.map (.duplicateName c)).toList

/-- The entry in the table of `d`. -/
def entry (d : EnumDeclaration) (c : LiteralConstant) : TableEntry :=
  ⟨d.qualifiedName, c.declared.constant, c.value, c.name, c.declared.position⟩

@[simp] theorem value_entry (d : EnumDeclaration) (c : LiteralConstant) :
    (c.entry d).value = c.value := rfl

@[simp] theorem name_entry (d : EnumDeclaration) (c : LiteralConstant) :
    (c.entry d).name = c.name := rfl

end LiteralConstant

/-- What has been gathered of the constants of an enumeration so far. -/
structure ConstantPass where
  violations : List EnumViolation := []
  /-- The first literal constant with each value. -/
  values : Std.TreeMap Int64 LiteralConstant := {}
  /-- The first literal constant with each name. -/
  names : Std.TreeMap Bytes LiteralConstant := {}
  /-- The literal constants whose values and names are new. -/
  entries : List TableEntry := []
  constants : List Bytes := []

namespace ConstantPass

/-- Takes in a literal constant. -/
def enter (d : EnumDeclaration) (p : ConstantPass) (c : LiteralConstant) : ConstantPass :=
  let found := c.clashes p.values[c.value]? p.names[c.name]?
  let isNew := found.isEmpty
  { p with
    violations := p.violations ++ found
    values := p.values.insertIfNew c.value c
    names := p.names.insertIfNew c.name c
    entries := if isNew then p.entries ++ [c.entry d] else p.entries }

/-- Takes in the next constant. -/
def add (d : EnumDeclaration) (p : ConstantPass) (c : ConstantDeclaration) : ConstantPass :=
  let p := { p with constants := p.constants ++ [c.constant] }
  match LiteralConstant.ofDeclaration? c with
  | some literal => p.enter d literal
  | none => p

end ConstantPass

/-! ## Enumerations -/

/-- The outcome of a check: the report, and the table if there are no errors. -/
structure EnumerationCheck where
  report : Report
  table? : Option LookupTable
  deriving DecidableEq, Repr

namespace EnumDeclaration

/-- The pass over the constants. -/
def constantPass (d : EnumDeclaration) : ConstantPass :=
  d.constants.foldl (ConstantPass.add d)
    { violations := if d.extensible then [] else [.notExtensible] }

/-- Checks an enumeration. -/
def check (fixHints : Bool) (d : EnumDeclaration) : EnumerationCheck :=
  let rep : Reporter := ⟨d.qualifiedName, fixHints⟩
  let p := d.constantPass
  let report := Report.ofList (p.violations.map (EnumViolation.diagnostic rep d))
  let table : LookupTable :=
    { typeName := d.name, ns := d.ns, entries := p.entries, constants := p.constants }
  ⟨report, if report.success then some table else none⟩

end EnumDeclaration

end Equate
