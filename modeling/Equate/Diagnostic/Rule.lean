import Equate.Bytes
/-!
# The rules

Every rule that a declaration can break has a stable code, a name and a severity.
-/

namespace Equate

inductive Severity where
  | error
  | warning
  deriving DecidableEq, Repr

inductive Rule where
  | notExtensible
  | missingStrategy
  | missingCompanionEquals
  | missingCompanionHash
  | multipleStrategies
  | sequenceOnNonSequence
  | strategyOutsideContract
  | contractWithoutBaseShape
  | duplicateCompanionNames
  | mutableProperty
  | mutableField
  | extraMemberInWrapper
  | duplicateOrder
  | unnecessaryContractMarker
  | strategyOnUnsupportedMember
  | duplicateEnumValue
  | duplicateEnumName
  | enumNotExtensible
  | malformedDeclaration
  deriving DecidableEq, Repr

namespace Rule

/-- Every rule, in the order of the code table. -/
def all : List Rule :=
  [notExtensible, missingStrategy, missingCompanionEquals, missingCompanionHash,
    multipleStrategies, sequenceOnNonSequence, strategyOutsideContract, contractWithoutBaseShape,
    duplicateCompanionNames, mutableProperty, mutableField, extraMemberInWrapper, duplicateOrder,
    unnecessaryContractMarker, strategyOnUnsupportedMember, duplicateEnumValue, duplicateEnumName,
    enumNotExtensible, malformedDeclaration]

def code : Rule → Bytes
  | .notExtensible => "EQ001"
  | .missingStrategy => "EQ002"
  | .missingCompanionEquals => "EQ003"
  | .missingCompanionHash => "EQ004"
  | .multipleStrategies => "EQ005"
  | .sequenceOnNonSequence => "EQ006"
  | .strategyOutsideContract => "EQ007"
  | .contractWithoutBaseShape => "EQ008"
  | .duplicateCompanionNames => "EQ009"
  | .mutableProperty => "EQ010"
  | .mutableField => "EQ011"
  | .extraMemberInWrapper => "EQ012"
  | .duplicateOrder => "EQ013"
  | .unnecessaryContractMarker => "EQ014"
  | .strategyOnUnsupportedMember => "EQ015"
  | .duplicateEnumValue => "EN001"
  | .duplicateEnumName => "EN002"
  | .enumNotExtensible => "EN003"
  | .malformedDeclaration => "ED001"

def name : Rule → Bytes
  | .notExtensible | .enumNotExtensible => "not-extensible"
  | .missingStrategy => "missing-strategy"
  | .missingCompanionEquals => "missing-companion-equals"
  | .missingCompanionHash => "missing-companion-hash"
  | .multipleStrategies => "multiple-strategies"
  | .sequenceOnNonSequence => "sequence-on-non-sequence"
  | .strategyOutsideContract => "strategy-outside-contract"
  | .contractWithoutBaseShape => "contract-without-base-shape"
  | .duplicateCompanionNames => "duplicate-companion-names"
  | .mutableProperty => "mutable-property"
  | .mutableField => "mutable-field"
  | .extraMemberInWrapper => "extra-member-in-wrapper"
  | .duplicateOrder => "duplicate-order"
  | .unnecessaryContractMarker => "unnecessary-contract-marker"
  | .strategyOnUnsupportedMember => "strategy-on-unsupported-member"
  | .duplicateEnumValue => "duplicate-value"
  | .duplicateEnumName => "duplicate-name"
  | .malformedDeclaration => "malformed-declaration"

/-- What only asks for attention is a warning. -/
def severity : Rule → Severity
  | .missingStrategy | .mutableProperty | .mutableField | .extraMemberInWrapper
  | .duplicateOrder | .unnecessaryContractMarker => .warning
  | _ => .error

/-- The rule with a code. -/
def ofCode? (code : Bytes) : Option Rule := all.find? fun r => r.code == code

end Rule

/-- The severity that goes with a code; an unknown code is an error. -/
def Severity.ofCode (code : Bytes) : Severity :=
  match Rule.ofCode? code with
  | some rule => rule.severity
  | none => .error

end Equate
