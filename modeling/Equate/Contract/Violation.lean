import Equate.Contract.Basic
import Equate.Diagnostic.Basic
/-!
# Violations of the equality rules

What can be wrong with a class as far as equality is concerned, and how it is reported.
-/

namespace Equate

inductive Violation where
  | contractWithoutBaseShape
  | unnecessaryMarker
  | extraMember (m : Member)
  | strategyOutsideContract (m : Member) (a : PlacedStrategy)
  | notExtensible
  | strategyOnUnsupportedMember (m : Member)
  | missingStrategy (m : Member)
  | multipleStrategies (m : Member)
  | missingCompanionEquals (m : Member)
  | missingCompanionHash (m : Member)
  | duplicateCompanionNames (m first : Member)
  | sequenceOnNonSequence (m : Member)
  | mutableField (m : Member)
  | mutableProperty (m : Member)
  /-- Members that ask for one and the same place in the evaluation order. -/
  | duplicateOrder (order : Int) (members : List Member)
  deriving DecidableEq, Repr

namespace Violation

def quoted (name : Bytes) : Bytes := utf8 "'" ++ name ++ utf8 "'"

/-- The declaration of the function that compares the values of a member. -/
def equalsSignature (m : Member) : Bytes :=
  utf8 "static bool " ++ equalsCompanion m.name ++ utf8 "(const " ++ m.type.cpp ++
    utf8 "& value, const " ++ m.type.cpp ++ utf8 "& other)"

/-- The declaration of the function that hashes the values of a member. -/
def hashSignature (m : Member) : Bytes :=
  utf8 "static int " ++ hashCompanion m.name ++ utf8 "(const " ++ m.type.cpp ++ utf8 "& value)"

def rule : Violation → Rule
  | .contractWithoutBaseShape => .contractWithoutBaseShape
  | .unnecessaryMarker => .unnecessaryContractMarker
  | .extraMember _ => .extraMemberInWrapper
  | .strategyOutsideContract _ _ => .strategyOutsideContract
  | .notExtensible => .notExtensible
  | .strategyOnUnsupportedMember _ => .strategyOnUnsupportedMember
  | .missingStrategy _ => .missingStrategy
  | .multipleStrategies _ => .multipleStrategies
  | .missingCompanionEquals _ => .missingCompanionEquals
  | .missingCompanionHash _ => .missingCompanionHash
  | .duplicateCompanionNames _ _ => .duplicateCompanionNames
  | .sequenceOnNonSequence _ => .sequenceOnNonSequence
  | .mutableField _ => .mutableField
  | .mutableProperty _ => .mutableProperty
  | .duplicateOrder _ _ => .duplicateOrder

/-- "the field 'x'", by the kind of the member. -/
def theMember (m : Member) : Bytes := utf8 "the " ++ m.kind.name ++ utf8 " " ++ quoted m.name

def inValueObject (d : ClassDeclaration) : Bytes := utf8 " in value object " ++ quoted d.name

def missingCompanion (m : Member) (function : Bytes) : Bytes :=
  theMember m ++ utf8 " has (custom) but the required static function " ++ quoted function ++
    utf8 " is missing"

/-- What is wrong, in class `d`. -/
def message (d : ClassDeclaration) : Violation → Bytes
  | .contractWithoutBaseShape => utf8 "class " ++ quoted d.name ++
      utf8 " is marked value-object but does not derive from value-object"
  | .unnecessaryMarker => utf8 "class " ++ quoted d.name ++
      utf8 " is a single-value wrapper; the value-object marker is unnecessary and ignored"
  | .extraMember m => utf8 "wrapper " ++ quoted d.name ++ utf8 " should not declare additional " ++
      m.kind.name ++ utf8 " " ++ quoted m.name ++ utf8 "; only 'Value' is allowed"
  | .strategyOutsideContract m a => theMember m ++ utf8 " has equality strategy " ++
      quoted a.strategy.name ++ utf8 " but class " ++ quoted d.name ++
      utf8 " is not marked value-object"
  | .notExtensible => utf8 "value object " ++ quoted d.name ++
      utf8 " must be declared partial to enable generation"
  | .strategyOnUnsupportedMember m => utf8 "the equality strategy on " ++ quoted m.name ++
      utf8 " is invalid; only fields and auto properties are supported"
  | .missingStrategy m => theMember m ++ inValueObject d ++
      utf8 " should have an equality strategy"
  | .multipleStrategies m => theMember m ++ inValueObject d ++
      utf8 " has multiple equality strategies; only one is allowed"
  | .missingCompanionEquals m => missingCompanion m (equalsCompanion m.name)
  | .missingCompanionHash m => missingCompanion m (hashCompanion m.name)
  | .duplicateCompanionNames m first => utf8 "the members " ++ quoted first.name ++ utf8 " and " ++
      quoted m.name ++ utf8 " would generate the same companion names " ++
      quoted (equalsCompanion m.name) ++ utf8 " and " ++ quoted (hashCompanion m.name)
  | .sequenceOnNonSequence m => theMember m ++ utf8 " has (sequence) but its type " ++
      quoted m.type.toText ++ utf8 " is not a sequence"
  | .mutableField m => theMember m ++ inValueObject d ++
      utf8 " must be declared readonly to enforce immutability"
  | .mutableProperty m => theMember m ++ inValueObject d ++
      utf8 " must be get-only or init-only to enforce immutability"
  | .duplicateOrder order members => utf8 "members " ++
      Bytes.join ", " (members.map fun m => quoted m.name) ++ inValueObject d ++
      utf8 " share order " ++ Bytes.ofInt order ++
      utf8 "; evaluation falls back to declaration order"

def hint : Violation → Bytes
  | .contractWithoutBaseShape => "add :base value-object"
  | .unnecessaryMarker => "remove value-object from :attrs"
  | .extraMember _ => "remove the member or derive from value-object"
  | .strategyOutsideContract _ _ => "add :attrs [value-object] or remove the strategy"
  | .notExtensible => "add :partial true"
  | .strategyOnUnsupportedMember m =>
    if m.kind = .method then "remove the strategy from the method"
    else "remove the strategy or make the property an auto property"
  | .missingStrategy _ => "annotate with (include), (ignore), (sequence) or (custom)"
  | .multipleStrategies _ => "keep exactly one of (include), (ignore), (sequence), (custom)"
  | .missingCompanionEquals m => utf8 "declare " ++ equalsSignature m
  | .missingCompanionHash m => utf8 "declare " ++ hashSignature m
  | .duplicateCompanionNames _ _ => "rename one of them"
  | .sequenceOnNonSequence _ => "use (include) instead"
  | .mutableField _ => "add :readonly true"
  | .mutableProperty _ => "use :setter init or :setter none"
  | .duplicateOrder _ _ => "give each member a distinct :order"

/-- The place to report, in class `d`. -/
def location (d : ClassDeclaration) : Violation → Location
  | .contractWithoutBaseShape =>
    match d.marker? with
    | some l => if 0 ≤ l.line then l else d.location
    | none => d.location
  | .unnecessaryMarker => d.marker?.getD .unknown
  | .notExtensible => d.location
  | .strategyOutsideContract _ a => a.location
  | .strategyOnUnsupportedMember m | .multipleStrategies m | .sequenceOnNonSequence m =>
    m.strategyLocation
  | .extraMember m | .missingStrategy m | .missingCompanionEquals m | .missingCompanionHash m
  | .duplicateCompanionNames m _ | .mutableField m | .mutableProperty m => m.location
  | .duplicateOrder _ members =>
    match members with
    | m :: _ => m.strategyLocation
    | [] => .unknown

/-- Tells of a function that has the right name but is not static, and of what was expected. -/
def companionNotes (d : ClassDeclaration) (function signature : Bytes) : List Note :=
  (match d.functions.find? fun f => f.name == function with
    | some f => [⟨quoted function ++ utf8 " is declared but not static", f.location⟩]
    | none => []) ++
  [⟨utf8 "expected: " ++ signature, .unknown⟩]

/-- The further places to point at, in class `d`. -/
def notes (d : ClassDeclaration) : Violation → List Note
  | .multipleStrategies m => m.strategies.map fun a =>
      ⟨utf8 "(" ++ a.strategy.name ++ utf8 ") declared here", a.location⟩
  | .missingCompanionEquals m =>
    companionNotes d (equalsCompanion m.name) (equalsSignature m)
  | .missingCompanionHash m => companionNotes d (hashCompanion m.name) (hashSignature m)
  | .duplicateCompanionNames _ first =>
    [⟨quoted first.name ++ utf8 " declared here", first.location⟩]
  | .duplicateOrder order members => (members.drop 1).map fun m =>
      ⟨quoted m.name ++ utf8 " also uses order " ++ Bytes.ofInt order, m.strategyLocation⟩
  | _ => []

def addFix (m : Member) (strategy : Bytes) : Fix :=
  ⟨utf8 "add-" ++ strategy, utf8 "Add (" ++ strategy ++ utf8 ") to " ++ quoted m.name⟩

/-- The repairs to offer, in class `d`. -/
def fixes (d : ClassDeclaration) : Violation → List Fix
  | .contractWithoutBaseShape =>
    [⟨"add-base", utf8 "Derive " ++ quoted d.name ++ utf8 " from value-object"⟩]
  | .unnecessaryMarker => [⟨"remove-marker", "Remove the value-object marker"⟩]
  | .extraMember m => [⟨"remove-member", utf8 "Remove " ++ quoted m.name⟩]
  | .strategyOutsideContract _ _ =>
    [⟨"add-marker", utf8 "Mark " ++ quoted d.name ++ utf8 " as value-object"⟩,
      ⟨"remove-strategy", "Remove the equality strategy"⟩]
  | .notExtensible => [⟨"make-partial", utf8 "Make " ++ quoted d.name ++ utf8 " partial"⟩]
  | .strategyOnUnsupportedMember _ => [⟨"remove-strategy", "Remove the equality strategy"⟩]
  | .missingStrategy m => [addFix m "include", addFix m "ignore"] ++
      (if m.type.isSequence then [addFix m "sequence"] else [])
  | .multipleStrategies m => (m.strategies.map fun a => a.strategy.name).eraseDups.map fun k =>
      ⟨utf8 "keep-only-" ++ k, utf8 "Keep only (" ++ k ++ utf8 ")"⟩
  | .missingCompanionEquals m | .missingCompanionHash m =>
    [⟨"generate-companions", utf8 "Generate companion stubs for " ++ quoted m.name⟩]
  | .duplicateCompanionNames _ _ => []
  | .sequenceOnNonSequence _ => [⟨"replace-with-include", "Replace (sequence) with (include)"⟩]
  | .mutableField m => [⟨"make-readonly", utf8 "Make " ++ quoted m.name ++ utf8 " readonly"⟩]
  | .mutableProperty m => [⟨"make-init-only", utf8 "Make " ++ quoted m.name ++ utf8 " init-only"⟩]
  | .duplicateOrder _ _ => []

/-- The diagnostic for a violation in class `d`. -/
def diagnostic (rep : Reporter) (d : ClassDeclaration) (v : Violation) : Diagnostic :=
  rep.diagnose v.rule (v.message d) v.hint (v.location d) (v.notes d) (v.fixes d)

end Violation

end Equate
