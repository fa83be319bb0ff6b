import Equate.Contract.Check
import Equate.Proofs.Diagnostic.Report
import Equate.Proofs.Grouping
/-!
# What the check of a class comes to

The pass over the members of a value object carries maps along. Here the same is said without them:
what is wrong with a member is told from the members in front of it (`memberViolations`), what is
wrong with the class from all of them (`violations`), and so is the contract that the class asks for
(`requestedContract?`). The pass arrives at just that (`gathers_memberPass`, `check_eq`). An entry
that it leaves out is that of a member with an error, and then there is no contract.
-/

namespace Equate

namespace ClassDeclaration

/-! ## Members -/

/-- Whether a member is compared by companion functions. -/
def isCustomMember (m : Member) : Bool := m.strategy?.any Strategy.isCustom

/-- The first custom member in front of place `i` whose companion functions have the names of those
of `m`. -/
def companionOwner? (d : ClassDeclaration) (i : Nat) (m : Member) : Option Member :=
  let own := companionSuffix m.name
  (d.members.take i).find? fun o => isCustomMember o && companionSuffix o.name == own

/-- What is wrong with the strategies of the member at place `i`, which can carry one. -/
def strategyViolations (d : ClassDeclaration) (i : Nat) (m : Member) : List Violation :=
  match m.strategies with
  | [] => [.missingStrategy m]
  | [a] => d.useViolations (d.companionOwner? i m) m a.strategy
  | _ :: _ :: _ => [.multipleStrategies m]

/-- What is wrong with the member at place `i` of a value object. -/
def memberViolations (d : ClassDeclaration) (i : Nat) (m : Member) : List Violation :=
  if m.isStatic then []
  else if !m.eligible then
    if m.strategies.isEmpty then [] else [.strategyOnUnsupportedMember m]
  else d.strategyViolations i m ++ mutabilityViolations m

/-- The place in the evaluation order that a member asks for, with the member. -/
def ordered? (m : Member) : Option (Int × Member) :=
  (m.strategy?.bind Strategy.order?).map fun order => (order, m)

/-- The members that ask for a place in the evaluation order, with that place. -/
def orderedMembers (d : ClassDeclaration) : List (Int × Member) := d.members.filterMap ordered?

/-- The places in the evaluation order that several members ask for. -/
def orderViolations (d : ClassDeclaration) : List Violation :=
  (groupByKey Prod.fst d.orderedMembers).filterMap fun (order, members) =>
    if members.length < 2 then none else some (.duplicateOrder order (members.map Prod.snd))

/-! ## Classes -/

/-- What is wrong with a value object. -/
def valueObjectViolations (d : ClassDeclaration) : List Violation :=
  (if d.extensible then [] else [.notExtensible]) ++
  (d.members.zipIdx.flatMap fun (m, i) => d.memberViolations i m) ++
  d.orderViolations

/-- What is wrong with a class. -/
def violations (d : ClassDeclaration) : List Violation :=
  match d.base, d.marker? with
  | .wrapper _, _ => d.wrapperViolations
  | _, none => d.unmarkedViolations
  | .valueObject, some _ => d.valueObjectViolations
  | .other, some _ => [.contractWithoutBaseShape]

/-- The members that take part in equality, in evaluation order. -/
def entries (d : ClassDeclaration) : List ContractEntry :=
  sortBy ContractEntry.le (d.members.filterMap fun m => m.strategy?.map (ContractEntry.mk m))

/-- The contract that a class asks for, whether or not it is free of errors. -/
def requestedContract? (d : ClassDeclaration) : Option Contract :=
  match d.base, d.marker? with
  | .wrapper wrapped, _ =>
    some { typeName := d.name, ns := d.ns, wrapper := true, entries := [wrapperEntry wrapped] }
  | .valueObject, some _ => some { typeName := d.name, ns := d.ns, entries := d.entries }
  | _, _ => none

end ClassDeclaration

/-! ## The pass -/

variable {d : ClassDeclaration} {before : List Member} {m : Member} {s : Strategy} {p : MemberPass}

theorem Violation.severity_diagnostic (rep : Reporter) (d : ClassDeclaration) (v : Violation) :
    (v.diagnostic rep d).severity = v.rule.severity :=
  Severity.ofCode_code v.rule

/-- A member with a strategy takes part by its only one. -/
theorem Member.exists_of_strategy? (h : m.strategy? = some s) :
    m.isStatic = false ∧ m.eligible = true ∧ (∃ l, m.strategies = [⟨s, l⟩]) ∧
      s.isIgnore = false := by
  rw [strategy?] at h
  split at h
  · rename_i a hstrategies
    split at h
    · cases h
    · rename_i hplain
      cases h
      simp only [Bool.or_eq_true, Bool.not_eq_true', not_or, Bool.not_eq_true,
        Bool.not_eq_false] at hplain
      exact ⟨hplain.1.1, hplain.1.2, ⟨a.location, hstrategies⟩, hplain.2⟩
  · cases h

namespace ClassDeclaration

theorem memberViolations_of_strategy? (h : m.strategy? = some s) (i : Nat) :
    d.memberViolations i m =
      d.useViolations (d.companionOwner? i m) m s ++ mutabilityViolations m := by
  obtain ⟨hstatic, heligible, ⟨l, hl⟩, -⟩ := Member.exists_of_strategy? h
  simp [memberViolations, strategyViolations, hstatic, heligible, hl]

theorem severity_of_mem_useViolations {owner? : Option Member} {v : Violation}
    (h : v ∈ d.useViolations owner? m s) : v.rule.severity = .error := by
  cases s with
  | custom order? =>
    simp only [useViolations, companionViolations, List.mem_append, List.mem_ite_nil_left,
      List.mem_singleton] at h
    rcases h with (⟨-, rfl⟩ | ⟨-, rfl⟩) | h
    · rfl
    · rfl
    · obtain ⟨first, -, rfl⟩ := Option.map_eq_some_iff.1 (Option.mem_toList.1 h)
      rfl
  | sequence order? orderMatters deep =>
    rw [useViolations] at h
    split at h
    · cases h
    · rw [List.mem_singleton.1 h]
      rfl
  | «include» | ignore => cases h

end ClassDeclaration

namespace MemberPass

open ClassDeclaration

theorem report_nil (p : MemberPass) : p.report [] = p := by
  rw [report, List.append_nil]

theorem report_report (p : MemberPass) (vs ws : List Violation) :
    (p.report vs).report ws = p.report (vs ++ ws) := by
  simp [report]

/-- A member that takes no part is only reported. -/
theorem add_of_none (h : m.strategy? = none) (i : Nat) :
    p.add d m = p.report (d.memberViolations i m) := by
  cases hstatic : m.isStatic with
  | true => simp [add, memberViolations, hstatic, report_nil]
  | false =>
    cases heligible : m.eligible with
    | false => cases hstrategies : m.strategies <;>
        simp [add, memberViolations, hstatic, heligible, hstrategies, report_nil]
    | true =>
      match hstrategies : m.strategies with
      | [] | _ :: _ :: _ =>
        simp [add, carry, memberViolations, strategyViolations, hstatic, heligible, hstrategies,
          report_report]
      | [⟨s, l⟩] =>
        have hignore : s = .ignore := by
          cases s <;> simp [Member.strategy?, hstatic, heligible, hstrategies, Strategy.isIgnore] at h
          rfl
        simp [add, carry, memberViolations, strategyViolations, useViolations, hstatic, heligible,
          hstrategies, hignore, Strategy.isIgnore]

theorem add_of_some (h : m.strategy? = some s) :
    p.add d m = (p.use d m s).report (mutabilityViolations m) := by
  obtain ⟨hstatic, heligible, ⟨l, hl⟩, hignore⟩ := Member.exists_of_strategy? h
  simp [add, carry, hstatic, heligible, hl, hignore]

/-- What a pass has gathered behind the members `before`. -/
structure Gathers (d : ClassDeclaration) (before : List Member) (p : MemberPass) : Prop where
  violations : p.violations = (if d.extensible then [] else [.notExtensible]) ++
    before.zipIdx.flatMap fun (m, i) => d.memberViolations i m
  owners : LeadsToFirst (fun m => companionSuffix m.name) id (before.filter isCustomMember) p.owners
  orders : HoldsGroups (before.filterMap ordered?) p.orders
  entries : (∀ v ∈ p.violations, v.rule.severity = .warning) →
    p.entries = before.filterMap fun m => m.strategy?.map (ContractEntry.mk m)

namespace Gathers

/-- The map of the owners answers for the members in front. -/
theorem companionOwner?_eq {after : List Member} (h : d.members = before ++ m :: after)
    (hp : Gathers d before p) :
    d.companionOwner? before.length m = p.owners[companionSuffix m.name]? := by
  rw [hp.owners, companionOwner?, h, List.take_left, List.find?_filter, Option.map_id_fun, id]
  congr 1
  funext o
  rw [Bool.eq_iff_iff]
  simp

theorem report (hp : Gathers d before p) (hnone : m.strategy? = none) :
    Gathers d (before ++ [m]) (p.report (d.memberViolations before.length m)) where
  violations := by simp [MemberPass.report, hp.violations, List.zipIdx_append]
  owners := by
    have hcustom : isCustomMember m = false := by simp [isCustomMember, hnone]
    simpa [MemberPass.report, hcustom] using hp.owners
  orders := by
    have hordered : ordered? m = none := by simp [ordered?, hnone]
    simpa [MemberPass.report, hordered] using hp.orders
  entries hwarnings := by
    have hentries := hp.entries fun v hv => hwarnings v (List.mem_append_left _ hv)
    simpa [MemberPass.report, hnone] using hentries

theorem use {after : List Member} (h : d.members = before ++ m :: after) (hp : Gathers d before p)
    (hs : m.strategy? = some s) :
    Gathers d (before ++ [m]) ((p.use d m s).report (mutabilityViolations m)) where
  violations := by
    simp [MemberPass.report, MemberPass.use, hp.violations, List.zipIdx_append,
      d.memberViolations_of_strategy? hs, hp.companionOwner?_eq h]
  owners := by
    have hcustom : isCustomMember m = s.isCustom := by simp [isCustomMember, hs]
    cases hkind : s.isCustom with
    | true => simpa [MemberPass.report, MemberPass.use, hcustom, hkind] using hp.owners.insertIfNew m
    | false => simpa [MemberPass.report, MemberPass.use, hcustom, hkind] using hp.owners
  orders := by
    cases horder : s.order? with
    | some order =>
      have hordered : ordered? m = some (order, m) := by simp [ordered?, hs, horder]
      simpa [MemberPass.report, MemberPass.use, hordered, horder] using hp.orders.insert order m
    | none =>
      have hordered : ordered? m = none := by simp [ordered?, hs, horder]
      simpa [MemberPass.report, MemberPass.use, hordered, horder] using hp.orders
  entries hwarnings := by
    -- what keeps a strategy from being used is an error
    have husable : d.useViolations p.owners[companionSuffix m.name]? m s = [] := by
      refine List.eq_nil_iff_forall_not_mem.2 fun v hv => ?_
      have hwarning := hwarnings v (List.mem_append_left _ (List.mem_append_right _ hv))
      rw [severity_of_mem_useViolations hv] at hwarning
      cases hwarning
    have hentries := hp.entries fun v hv =>
      hwarnings v (List.mem_append_left _ (List.mem_append_left _ hv))
    simp [MemberPass.report, MemberPass.use, husable, hs, hentries]

theorem add {after : List Member} (h : d.members = before ++ m :: after) (hp : Gathers d before p) :
    Gathers d (before ++ [m]) (p.add d m) := by
  cases hs : m.strategy? with
  | none =>
    rw [add_of_none hs before.length]
    exact hp.report hs
  | some s =>
    rw [add_of_some hs]
    exact hp.use h hs

/-- The members are taken in one after another. -/
theorem foldl {after : List Member} (h : d.members = before ++ after) (hp : Gathers d [] p) :
    Gathers d before (before.foldl (MemberPass.add d) p) := by
  induction before using List.reverseRecOn generalizing after with
  | nil => exact hp
  | append_singleton before m ih =>
    rw [List.append_assoc] at h
    rw [List.foldl_append]
    exact (ih h).add h

end Gathers

end MemberPass

namespace ClassDeclaration

theorem gathers_memberPass (d : ClassDeclaration) : d.memberPass.Gathers d d.members :=
  .foldl (List.append_nil _).symm ⟨by simp, .empty, .empty, fun _ => rfl⟩

theorem orderViolations_memberPass (d : ClassDeclaration) :
    d.memberPass.orderViolations = d.orderViolations := by
  rw [MemberPass.orderViolations, d.gathers_memberPass.orders.toList_eq, List.filterMap_map,
    orderViolations, orderedMembers]
  congr 1
  funext group
  simp

theorem violations_memberPass (d : ClassDeclaration) :
    d.memberPass.violations ++ d.memberPass.orderViolations = d.valueObjectViolations := by
  rw [d.gathers_memberPass.violations, orderViolations_memberPass, valueObjectViolations]

/-! ## Conclusions -/

theorem success_conclude_iff {fixHints : Bool} {vs : List Violation} {requested? : Option Contract} :
    (d.conclude fixHints vs requested?).report.success = true ↔
      ∀ v ∈ vs, v.rule.severity = .warning := by
  rw [conclude, Report.success_ofList_iff, List.forall_mem_map]
  exact forall₂_congr fun v _ => by rw [Violation.severity_diagnostic]

/-- A contract is left out where there is an error. -/
theorem conclude_congr {vs : List Violation} {requested? requested'? : Option Contract}
    (h : (∀ v ∈ vs, v.rule.severity = .warning) → requested? = requested'?) (fixHints : Bool) :
    d.conclude fixHints vs requested? = d.conclude fixHints vs requested'? := by
  have hrequested : (d.conclude fixHints vs requested?).report.success = true →
      requested? = requested'? := fun hsuccess => h (success_conclude_iff.1 hsuccess)
  rw [conclude] at hrequested ⊢
  rw [conclude]
  dsimp only at hrequested ⊢
  rw [ite_congr rfl hrequested fun _ => rfl]

/-- A check reports what is wrong with the class, and returns the contract that the class asks for
unless there is an error. -/
theorem check_eq (fixHints : Bool) (d : ClassDeclaration) :
    d.check fixHints = d.conclude fixHints d.violations d.requestedContract? := by
  rw [check, violations, requestedContract?]
  cases d.base with
  | wrapper wrapped => rfl
  | other => cases d.marker? <;> rfl
  | valueObject =>
    cases d.marker? with
    | none => rfl
    | some l =>
      dsimp only
      rw [violations_memberPass]
      refine conclude_congr (fun hwarnings => ?_) fixHints
      rw [← violations_memberPass] at hwarnings
      rw [entries, d.gathers_memberPass.entries fun v hv =>
        hwarnings v (List.mem_append_left _ hv)]

end ClassDeclaration

end Equate
