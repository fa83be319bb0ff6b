import Equate.Emission.Equality
import Equate.Proofs.Contract.Pass
import Equate.Proofs.Declaration.Relocation
/-!
# Checking relocated classes

What is wrong with a class, and which contract it asks for, depends on no place: a relocated class
breaks the same rules with its members at their new places (`violations_relocate`). Without any
places it has the same diagnostics and the same contract, at no place (`check_relocate`), and the
code of a contract tells no places at all (`Contract.code_relocate`).
-/

namespace Equate

variable (place : Location → Location)

/-! ## Members -/

namespace Member

variable (m : Member)

@[simp] theorem name_relocate : (m.relocate place).name = m.name := rfl

@[simp] theorem kind_relocate : (m.relocate place).kind = m.kind := rfl

@[simp] theorem type_relocate : (m.relocate place).type = m.type := rfl

@[simp] theorem readonly_relocate : (m.relocate place).readonly = m.readonly := rfl

@[simp] theorem setter_relocate : (m.relocate place).setter = m.setter := rfl

@[simp] theorem isStatic_relocate : (m.relocate place).isStatic = m.isStatic := rfl

@[simp] theorem eligible_relocate : (m.relocate place).eligible = m.eligible := rfl

@[simp] theorem strategies_relocate :
    (m.relocate place).strategies = m.strategies.map (PlacedStrategy.relocate place) := rfl

@[simp] theorem strategy?_relocate : (m.relocate place).strategy? = m.strategy? := by
  unfold strategy?
  rw [strategies_relocate, isStatic_relocate, eligible_relocate]
  rcases m.strategies with _ | ⟨a, _ | ⟨b, rest⟩⟩ <;> rfl

end Member

/-- A violation by the members at their new places. -/
def Violation.relocate : Violation → Violation
  | .contractWithoutBaseShape => .contractWithoutBaseShape
  | .unnecessaryMarker => .unnecessaryMarker
  | .notExtensible => .notExtensible
  | .extraMember m => .extraMember (m.relocate place)
  | .strategyOutsideContract m a => .strategyOutsideContract (m.relocate place) (a.relocate place)
  | .strategyOnUnsupportedMember m => .strategyOnUnsupportedMember (m.relocate place)
  | .missingStrategy m => .missingStrategy (m.relocate place)
  | .multipleStrategies m => .multipleStrategies (m.relocate place)
  | .missingCompanionEquals m => .missingCompanionEquals (m.relocate place)
  | .missingCompanionHash m => .missingCompanionHash (m.relocate place)
  | .duplicateCompanionNames m first =>
    .duplicateCompanionNames (m.relocate place) (first.relocate place)
  | .sequenceOnNonSequence m => .sequenceOnNonSequence (m.relocate place)
  | .mutableField m => .mutableField (m.relocate place)
  | .mutableProperty m => .mutableProperty (m.relocate place)
  | .duplicateOrder order members => .duplicateOrder order (members.map (Member.relocate place))

/-! ## Violations -/

/-- Groups do not depend on what is done to the elements but for their keys. -/
theorem groupByKey_map {α β : Type} (f : α → β) (key : β → Int) (xs : List α) :
    groupByKey key (xs.map f) =
      (groupByKey (fun x => key (f x)) xs).map fun group => (group.1, group.2.map f) := by
  simp only [groupByKey, List.map_map, List.filter_map]
  rfl

namespace ClassDeclaration

variable (d : ClassDeclaration) (i : Nat) (m : Member)

theorem hasStaticFunction_relocate (name : Bytes) :
    (d.relocate place).hasStaticFunction name = d.hasStaticFunction name := by
  simp only [hasStaticFunction, relocate, List.any_map]
  rfl

theorem companionOwner?_relocate :
    (d.relocate place).companionOwner? i (m.relocate place) =
      (d.companionOwner? i m).map (Member.relocate place) := by
  simp only [companionOwner?, relocate, ← List.map_take, List.find?_map, Member.name_relocate]
  congr 2
  funext o
  simp [isCustomMember]

theorem companionViolations_relocate (owner? : Option Member) :
    (d.relocate place).companionViolations (owner?.map (Member.relocate place))
        (m.relocate place) =
      (d.companionViolations owner? m).map (Violation.relocate place) := by
  simp only [companionViolations, hasStaticFunction_relocate, Member.name_relocate,
    List.map_append, apply_ite (List.map (Violation.relocate place)), List.map_nil, List.map_cons,
    Violation.relocate]
  cases owner? <;> rfl

theorem useViolations_relocate (owner? : Option Member) (s : Strategy) :
    (d.relocate place).useViolations (owner?.map (Member.relocate place)) (m.relocate place) s =
      (d.useViolations owner? m s).map (Violation.relocate place) := by
  cases s with
  | custom => exact d.companionViolations_relocate place m owner?
  | sequence =>
    simp only [useViolations, Member.type_relocate,
      apply_ite (List.map (Violation.relocate place)), List.map_nil, List.map_cons,
      Violation.relocate]
    rfl
  | _ => rfl

theorem strategyViolations_relocate :
    (d.relocate place).strategyViolations i (m.relocate place) =
      (d.strategyViolations i m).map (Violation.relocate place) := by
  unfold strategyViolations
  rw [Member.strategies_relocate, companionOwner?_relocate]
  rcases m.strategies with _ | ⟨⟨strategy, location⟩, _ | ⟨b, rest⟩⟩
  · rfl
  · exact d.useViolations_relocate place m _ strategy
  · rfl

theorem mutabilityViolations_relocate :
    mutabilityViolations (m.relocate place) =
      (mutabilityViolations m).map (Violation.relocate place) := by
  have hignored : isIgnored (m.relocate place) = isIgnored m := by
    unfold isIgnored
    rw [Member.strategies_relocate]
    rcases m.strategies with _ | ⟨a, _ | ⟨b, rest⟩⟩ <;> rfl
  -- what is left are conditions on the kind, the setter and the like, which no place is part of
  simp only [mutabilityViolations, hignored, Member.kind_relocate, Member.readonly_relocate,
    Member.setter_relocate, apply_ite (List.map (Violation.relocate place)), List.map_nil,
    List.map_cons, Violation.relocate]
  rfl

theorem memberViolations_relocate :
    (d.relocate place).memberViolations i (m.relocate place) =
      (d.memberViolations i m).map (Violation.relocate place) := by
  simp only [memberViolations, Member.isStatic_relocate, Member.eligible_relocate,
    strategyViolations_relocate, mutabilityViolations_relocate, Member.strategies_relocate,
    List.isEmpty_map, apply_ite (List.map (Violation.relocate place)), List.map_nil, List.map_cons,
    List.map_append, Violation.relocate]

theorem orderViolations_relocate :
    (d.relocate place).orderViolations = d.orderViolations.map (Violation.relocate place) := by
  have hmembers : (d.relocate place).orderedMembers =
      d.orderedMembers.map fun e => (e.1, e.2.relocate place) := by
    simp only [orderedMembers, relocate, List.filterMap_map, List.map_filterMap]
    congr 1
    funext m
    simp only [ordered?, Function.comp_apply, Member.strategy?_relocate]
    cases m.strategy?.bind Strategy.order? <;> rfl
  simp only [orderViolations, hmembers, groupByKey_map, List.filterMap_map, List.map_filterMap]
  congr 1
  funext group
  simp only [Function.comp_apply, List.length_map, List.map_map]
  split
  · rfl
  · simp [Violation.relocate, Function.comp_def]

theorem valueObjectViolations_relocate :
    (d.relocate place).valueObjectViolations =
      d.valueObjectViolations.map (Violation.relocate place) := by
  have hextensible : (d.relocate place).extensible = d.extensible := rfl
  simp only [valueObjectViolations, orderViolations_relocate, hextensible, List.map_append,
    apply_ite (List.map (Violation.relocate place)), List.map_nil, List.map_cons,
    Violation.relocate]
  congr 2
  · have hmembers : (d.relocate place).members = d.members.map (Member.relocate place) := rfl
    rw [hmembers, List.zipIdx_map, List.flatMap_map, List.map_flatMap]
    congr 1
    funext e
    exact d.memberViolations_relocate place e.2 e.1

theorem violations_relocate :
    (d.relocate place).violations = d.violations.map (Violation.relocate place) := by
  have hbase : (d.relocate place).base = d.base := rfl
  have hmarker : (d.relocate place).marker? = d.marker?.map place := rfl
  have hmembers : (d.relocate place).members = d.members.map (Member.relocate place) := rfl
  have hwrapper : (d.relocate place).wrapperViolations =
      d.wrapperViolations.map (Violation.relocate place) := by
    simp only [wrapperViolations, hmarker, hmembers, Option.isSome_map, List.map_append,
      List.filter_map, List.map_map, apply_ite (List.map (Violation.relocate place)),
      List.map_nil, List.map_cons, Violation.relocate]
    rfl
  have hunmarked : (d.relocate place).unmarkedViolations =
      d.unmarkedViolations.map (Violation.relocate place) := by
    simp only [unmarkedViolations, hmembers, List.filter_map, List.flatMap_map, List.map_flatMap,
      Member.strategies_relocate, List.map_map]
    rfl
  unfold violations
  rw [hbase, hmarker]
  cases d.base with
  | wrapper wrapped => exact hwrapper
  | valueObject =>
    cases d.marker? with
    | none => exact hunmarked
    | some l => exact d.valueObjectViolations_relocate place
  | other =>
    cases d.marker? with
    | none => exact hunmarked
    | some l => rfl

end ClassDeclaration

/-! ## Diagnostics -/

namespace Violation

variable (d : ClassDeclaration) (v : Violation)

theorem rule_relocate : (v.relocate place).rule = v.rule := by
  cases v <;> rfl

theorem message_relocate : (v.relocate place).message (d.relocate place) = v.message d := by
  cases v with
  | duplicateOrder order members =>
    simp only [relocate, message, List.map_map, Function.comp_def, Member.name_relocate]
    rfl
  | _ => rfl

theorem hint_relocate : (v.relocate place).hint = v.hint := by
  cases v <;> rfl

theorem fixes_relocate : (v.relocate place).fixes (d.relocate place) = v.fixes d := by
  cases v with
  | multipleStrategies m =>
    simp only [relocate, fixes, Member.strategies_relocate, List.map_map, Function.comp_def,
      PlacedStrategy.relocate]
  | _ => rfl

theorem strategyLocation_relocate (m : Member) :
    (m.relocate place).strategyLocation = place m.strategyLocation := by
  unfold Member.strategyLocation
  rw [Member.strategies_relocate]
  cases m.strategies <;> rfl

/-- What is reported where everything is at no place points to no place. Other maps of places need
not go through: where the marker stands is told only if it is known. -/
theorem location_relocate :
    (v.relocate Location.forget).location (d.relocate Location.forget) = .unknown := by
  cases v with
  | contractWithoutBaseShape =>
    simp only [relocate, location, ClassDeclaration.relocate]
    cases d.marker? <;> rfl
  | unnecessaryMarker =>
    simp only [relocate, location, ClassDeclaration.relocate]
    cases d.marker? <;> rfl
  | strategyOnUnsupportedMember m | multipleStrategies m | sequenceOnNonSequence m =>
    exact strategyLocation_relocate Location.forget m
  | duplicateOrder order members =>
    cases members with
    | nil => rfl
    | cons m members => exact strategyLocation_relocate Location.forget m
  | _ => rfl

theorem companionNotes_relocate (function signature : Bytes) (h : place .unknown = .unknown) :
    companionNotes (d.relocate place) function signature =
      (companionNotes d function signature).map (Note.relocate place) := by
  have hfunctions : (d.relocate place).functions =
      d.functions.map (CompanionFunction.relocate place) := rfl
  have hname : (fun f : CompanionFunction => f.name == function) ∘
      CompanionFunction.relocate place = fun f => f.name == function := rfl
  unfold companionNotes
  rw [hfunctions, List.find?_map, hname, List.map_append]
  congr 1
  · cases d.functions.find? fun f => f.name == function <;> rfl
  · simp only [List.map_cons, List.map_nil, Note.relocate, h]

theorem notes_relocate (h : place .unknown = .unknown) :
    (v.relocate place).notes (d.relocate place) = (v.notes d).map (Note.relocate place) := by
  cases v with
  | multipleStrategies m =>
    simp only [relocate, notes, Member.strategies_relocate, List.map_map]
    rfl
  | missingCompanionEquals m => exact companionNotes_relocate place d _ _ h
  | missingCompanionHash m => exact companionNotes_relocate place d _ _ h
  | duplicateOrder order members =>
    simp only [relocate, notes, List.map_drop, List.map_map, Function.comp_def, Note.relocate,
      strategyLocation_relocate, Member.name_relocate]
  | _ => rfl

theorem diagnostic_relocate (rep : Reporter) :
    (v.relocate Location.forget).diagnostic rep (d.relocate Location.forget) =
      (v.diagnostic rep d).relocate Location.forget := by
  simp only [diagnostic, rule_relocate, message_relocate, hint_relocate, location_relocate,
    notes_relocate Location.forget d v rfl, fixes_relocate]
  rfl

end Violation

/-! ## Contracts -/

def ContractEntry.relocate (e : ContractEntry) : ContractEntry :=
  { e with member := e.member.relocate place }

def Contract.relocate (c : Contract) : Contract :=
  { c with entries := c.entries.map (ContractEntry.relocate place) }

/-- Sorting does not depend on what is done to the elements but for their order. -/
theorem sortBy_map {α β : Type} {le : α → α → Bool} {le' : β → β → Bool} (f : α → β)
    (h : ∀ a b, le' (f a) (f b) = le a b) (xs : List α) :
    sortBy le' (xs.map f) = (sortBy le xs).map f := by
  rw [sortBy_eq, sortBy_eq, List.map_mergeSort fun a _ b _ => (h a b).symm]

namespace ClassDeclaration

variable (d : ClassDeclaration)

theorem entries_relocate :
    (d.relocate place).entries = d.entries.map (ContractEntry.relocate place) := by
  have hentries : (d.members.map (Member.relocate place)).filterMap
        (fun m => m.strategy?.map (ContractEntry.mk m)) =
      (d.members.filterMap fun m => m.strategy?.map (ContractEntry.mk m)).map
        (ContractEntry.relocate place) := by
    rw [List.filterMap_map, List.map_filterMap]
    congr 1
    funext m
    simp only [Function.comp_apply, Member.strategy?_relocate]
    cases m.strategy? <;> rfl
  have hmembers : (d.relocate place).members = d.members.map (Member.relocate place) := rfl
  unfold entries
  rw [hmembers, hentries]
  exact sortBy_map (ContractEntry.relocate place) (fun _ _ => rfl) _

theorem requestedContract?_relocate (h : place .unknown = .unknown) :
    (d.relocate place).requestedContract? =
      d.requestedContract?.map (Contract.relocate place) := by
  have hbase : (d.relocate place).base = d.base := rfl
  have hmarker : (d.relocate place).marker? = d.marker?.map place := rfl
  have hentry (wrapped : TypeForm) :
      (wrapperEntry wrapped).relocate place = wrapperEntry wrapped := by
    simp [wrapperEntry, ContractEntry.relocate, Member.relocate, h]
  unfold requestedContract?
  rw [hbase, hmarker, entries_relocate]
  cases d.base with
  | wrapper wrapped =>
    simp only [Option.map_some, Contract.relocate, List.map_cons, List.map_nil, hentry]
    rfl
  | valueObject => cases d.marker? <;> rfl
  | other => cases d.marker? <;> rfl

theorem check_relocate (fixHints : Bool) :
    (d.relocate Location.forget).check fixHints =
      ⟨(d.check fixHints).report.map (Diagnostic.relocate Location.forget),
        (d.check fixHints).contract?.map (Contract.relocate Location.forget)⟩ := by
  have hdiagnostics : (d.relocate Location.forget).violations.map
        (Violation.diagnostic ⟨d.qualifiedName, fixHints⟩ (d.relocate Location.forget)) =
      (d.violations.map (Violation.diagnostic ⟨d.qualifiedName, fixHints⟩ d)).map
        (Diagnostic.relocate Location.forget) := by
    rw [violations_relocate, List.map_map, List.map_map]
    exact List.map_congr_left fun v _ => v.diagnostic_relocate d _
  have hname : (d.relocate Location.forget).qualifiedName = d.qualifiedName := rfl
  simp only [check_eq, conclude, hname, hdiagnostics, requestedContract?_relocate Location.forget d rfl,
    ← Report.map_ofList (f := Diagnostic.relocate Location.forget) fun _ => rfl,
    apply_ite (Option.map (Contract.relocate Location.forget)), Option.map_none]
  rfl

end ClassDeclaration

/-- Generated code tells no places. -/
theorem Contract.code_relocate (c : Contract) : (c.relocate place).code = c.code := by
  have hentries : (c.relocate place).entries = c.entries.map (ContractEntry.relocate place) := rfl
  have hcomment : Emission.orderComment (c.relocate place) = Emission.orderComment c := by
    simp only [Emission.orderComment, hentries, groupByKey_map, List.isEmpty_map, List.flatMap_map,
      List.map_map]
    rfl
  have hequals : Emission.equalsFunction (c.relocate place) = Emission.equalsFunction c := by
    simp only [Emission.equalsFunction, hentries, List.flatMap_map]
    rfl
  have hhash : Emission.hashFunction (c.relocate place) = Emission.hashFunction c := by
    simp only [Emission.hashFunction, hentries, List.flatMap_map]
    rfl
  unfold code
  rw [hcomment, hequals, hhash]
  rfl

end Equate
