import Std.Data.TreeMap
import Equate.Contract.Violation
/-!
# Checking classes

A class is checked against the equality rules in one pass that reports every violation. A class
without errors that asks for equality, by being a wrapper or by its marker, yields a contract.
-/

namespace Equate

namespace ClassDeclaration

/-- Whether a static function with this name is declared. -/
def hasStaticFunction (d : ClassDeclaration) (name : Bytes) : Bool :=
  d.functions.any fun f => f.isStatic && f.name == name

/-! ## Members -/

/-- What is wrong with the companion functions of a custom member, where `owner?` is the first
member in front of it whose companion functions have the same names. -/
def companionViolations (d : ClassDeclaration) (owner? : Option Member) (m : Member) :
    List Violation :=
  (if d.hasStaticFunction (equalsCompanion m.name) then [] else [.missingCompanionEquals m]) ++
  (if d.hasStaticFunction (hashCompanion m.name) then [] else [.missingCompanionHash m]) ++
  (owner?.map (.duplicateCompanionNames m)).toList

/-- What keeps the only strategy of a member from being used. -/
def useViolations (d : ClassDeclaration) (owner? : Option Member) (m : Member) :
    Strategy → List Violation
  | .custom _ => d.companionViolations owner? m
  | .sequence _ _ _ => if m.type.isSequence then [] else [.sequenceOnNonSequence m]
  | .include _ | .ignore => []

/-- Whether the only strategy of a member is to ignore it. -/
def isIgnored (m : Member) : Bool :=
  match m.strategies with
  | [a] => a.strategy.isIgnore
  | _ => false

/-- Whether a member can change after construction; ignored members may. -/
def mutabilityViolations (m : Member) : List Violation :=
  if isIgnored m then []
  else if m.kind = .field ∧ !m.readonly then [.mutableField m]
  else if m.kind = .property ∧ m.setter = .set then [.mutableProperty m]
  else []

end ClassDeclaration

/-- What has been gathered of the members of a value object so far. -/
structure MemberPass where
  violations : List Violation := []
  /-- For each suffix of companion names the first custom member with it. -/
  owners : Std.TreeMap Bytes Member := {}
  /-- For each place in the evaluation order the members that ask for it. -/
  orders : Std.TreeMap Int (List Member) := {}
  /-- The members whose strategies can be used. -/
  entries : List ContractEntry := []

namespace MemberPass

def report (p : MemberPass) (vs : List Violation) : MemberPass :=
  { p with violations := p.violations ++ vs }

/-- Takes in a member with its only strategy, which is not to ignore it. -/
def use (d : ClassDeclaration) (p : MemberPass) (m : Member) (s : Strategy) : MemberPass :=
  let suffix := companionSuffix m.name
  let found := d.useViolations p.owners[suffix]? m s
  let usable := found.isEmpty
  { violations := p.violations ++ found
    owners := if s.isCustom then p.owners.insertIfNew suffix m else p.owners
    orders :=
      match s.order? with
      | some order => p.orders.insert order (p.orders.getD order [] ++ [m])
      | none => p.orders
    entries := if usable then p.entries ++ [⟨m, s⟩] else p.entries }

/-- Takes in a member that can carry a strategy. -/
def carry (d : ClassDeclaration) (p : MemberPass) (m : Member) : MemberPass :=
  match m.strategies with
  | [] => p.report [.missingStrategy m]
  | [a] => if a.strategy.isIgnore then p else p.use d m a.strategy
  | _ :: _ :: _ => p.report [.multipleStrategies m]

/-- Takes in the next member. -/
def add (d : ClassDeclaration) (p : MemberPass) (m : Member) : MemberPass :=
  if m.isStatic then p
  else if !m.eligible then
    if m.strategies.isEmpty then p else p.report [.strategyOnUnsupportedMember m]
  else (p.carry d m).report (ClassDeclaration.mutabilityViolations m)

/-- The places in the evaluation order that several members ask for. -/
def orderViolations (p : MemberPass) : List Violation :=
  p.orders.toList.filterMap fun (order, members) =>
    if members.length < 2 then none else some (.duplicateOrder order members)

end MemberPass

/-! ## Classes -/

/-- The outcome of a check: the report, and the contract if there are no errors. -/
structure ContractCheck where
  report : Report
  contract? : Option Contract
  deriving DecidableEq, Repr

namespace ClassDeclaration

/-- The pass over the members of a value object. -/
def memberPass (d : ClassDeclaration) : MemberPass :=
  d.members.foldl (MemberPass.add d)
    { violations := if d.extensible then [] else [.notExtensible] }

/-- What is wrong with a wrapper: a marker, and any member of an instance but methods. -/
def wrapperViolations (d : ClassDeclaration) : List Violation :=
  (if d.marker?.isSome then [.unnecessaryMarker] else []) ++
  (d.members.filter fun m => m.kind != .method && !m.isStatic).map .extraMember

/-- What is wrong with a class that does not ask for equality: strategies on its members. -/
def unmarkedViolations (d : ClassDeclaration) : List Violation :=
  (d.members.filter fun m => m.kind != .method).flatMap fun m =>
    m.strategies.map (.strategyOutsideContract m)

/-- The one entry of a wrapper. -/
def wrapperEntry (wrapped : TypeForm) : ContractEntry :=
  ⟨{ name := utf8 "Value", kind := .property, type := wrapped }, .include none⟩

/-- Reports what is wrong with a class. Without errors it gets the contract that it asks for. -/
def conclude (d : ClassDeclaration) (fixHints : Bool) (vs : List Violation)
    (requested? : Option Contract) : ContractCheck :=
  let rep : Reporter := ⟨d.qualifiedName, fixHints⟩
  let report := Report.ofList (vs.map (Violation.diagnostic rep d))
  ⟨report, if report.success then requested? else none⟩

/-- Checks a class. -/
def check (fixHints : Bool) (d : ClassDeclaration) : ContractCheck :=
  match d.base, d.marker? with
  | .wrapper wrapped, _ =>
    d.conclude fixHints d.wrapperViolations
      (some { typeName := d.name, ns := d.ns, wrapper := true, entries := [wrapperEntry wrapped] })
  | _, none => d.conclude fixHints d.unmarkedViolations none
  | .valueObject, some _ =>
    let p := d.memberPass
    d.conclude fixHints (p.violations ++ p.orderViolations)
      (some { typeName := d.name, ns := d.ns, entries := sortBy ContractEntry.le p.entries })
  | .other, some _ => d.conclude fixHints [.contractWithoutBaseShape] none

end ClassDeclaration

end Equate
