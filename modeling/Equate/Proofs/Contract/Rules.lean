import Equate.Proofs.Contract.Pass
/-!
# The rules of a value object

What a member of a value object can be reported for is told rule by rule (`Breaks`): no rule asks
whether another one is broken. `mem_memberViolations_iff` says that the check reports exactly that,
and `nodup_memberViolations` that it reports no rule twice.
-/

namespace Equate

/-! ## Members -/

namespace Member

/-- Whether a member belongs to instances and can carry a strategy. -/
def isCarrier (m : Member) : Bool := !m.isStatic && m.eligible

/-- Whether a member carries exactly one strategy, and that one is of the given kind. -/
def hasOnly (kind : Strategy → Bool) (m : Member) : Bool :=
  match m.strategies with
  | [a] => kind a.strategy
  | _ => false

/-- Whether a member is compared by companion functions. -/
def isCustom (m : Member) : Bool := m.isCarrier && m.hasOnly Strategy.isCustom

/-- Whether a member asks for a place in the evaluation order. -/
def asksFor (order : Int) (m : Member) : Bool :=
  m.isCarrier && m.hasOnly fun s => s.order? == some order

/-- Whether the companion functions of both members have the same names. -/
def sharesCompanions (m o : Member) : Bool :=
  o.isCustom && companionSuffix o.name == companionSuffix m.name

variable {m : Member}

theorem hasOnly_iff {kind : Strategy → Bool} :
    m.hasOnly kind = true ↔ ∃ a, m.strategies = [a] ∧ kind a.strategy = true := by
  unfold hasOnly
  split
  · rename_i a h
    simp [h]
  · rename_i h
    simp only [Bool.false_eq_true, false_iff, not_exists, not_and]
    exact fun a ha => absurd ha (h a)

theorem isCarrier_iff : m.isCarrier = true ↔ m.isStatic = false ∧ m.eligible = true := by
  simp [isCarrier]

/-- A member takes part by its only strategy, unless it is to be ignored. -/
theorem strategy?_eq_some_iff {s : Strategy} :
    m.strategy? = some s ↔
      m.isCarrier = true ∧ (∃ l, m.strategies = [⟨s, l⟩]) ∧ s.isIgnore = false := by
  rw [isCarrier_iff, strategy?]
  constructor
  · intro h
    split at h
    · rename_i a hstrategies
      split at h
      · cases h
      · rename_i hplain
        cases h
        simp only [Bool.or_eq_true, Bool.not_eq_true', not_or, Bool.not_eq_true,
          Bool.not_eq_false] at hplain
        exact ⟨hplain.1, ⟨a.location, hstrategies⟩, hplain.2⟩
    · cases h
  · rintro ⟨⟨hstatic, heligible⟩, ⟨l, hl⟩, hignore⟩
    simp [hl, hstatic, heligible, hignore]

theorem isCustomMember_eq (m : Member) : ClassDeclaration.isCustomMember m = m.isCustom := by
  rw [Bool.eq_iff_iff, ClassDeclaration.isCustomMember, Option.any_eq_true, isCustom,
    Bool.and_eq_true, hasOnly_iff]
  constructor
  · rintro ⟨s, hs, hcustom⟩
    obtain ⟨hcarrier, ⟨l, hl⟩, -⟩ := strategy?_eq_some_iff.1 hs
    exact ⟨hcarrier, ⟨s, l⟩, hl, hcustom⟩
  · rintro ⟨hcarrier, ⟨s, l⟩, hl, hcustom⟩
    refine ⟨s, strategy?_eq_some_iff.2 ⟨hcarrier, ⟨l, hl⟩, ?_⟩, hcustom⟩
    cases s <;> first | rfl | cases hcustom

theorem isCustom_of_strategy? {s : Strategy} (h : m.strategy? = some s)
    (hcustom : s.isCustom = true) : m.isCustom = true := by
  rw [← isCustomMember_eq, ClassDeclaration.isCustomMember, h]
  exact hcustom

theorem asksFor_iff {order : Int} :
    m.asksFor order = true ↔ m.strategy?.bind Strategy.order? = some order := by
  rw [asksFor, Bool.and_eq_true, hasOnly_iff, Option.bind_eq_some_iff]
  constructor
  · rintro ⟨hcarrier, ⟨s, l⟩, hl, horder⟩
    refine ⟨s, strategy?_eq_some_iff.2 ⟨hcarrier, ⟨l, hl⟩, ?_⟩, beq_iff_eq.1 horder⟩
    cases s <;> first | rfl | cases horder
  · rintro ⟨s, hs, horder⟩
    obtain ⟨hcarrier, ⟨l, hl⟩, -⟩ := strategy?_eq_some_iff.1 hs
    exact ⟨hcarrier, ⟨s, l⟩, hl, beq_iff_eq.2 horder⟩

/-- What a member of the value object `d` can be reported for, where `before` are the members
declared in front of it. -/
inductive Breaks (d : ClassDeclaration) (before : List Member) (m : Member) : Violation → Prop
  | strategyOnUnsupportedMember (hstatic : m.isStatic = false) (heligible : m.eligible = false)
    (hstrategies : m.strategies ≠ []) : Breaks d before m (.strategyOnUnsupportedMember m)
  | missingStrategy (hcarrier : m.isCarrier = true) (hstrategies : m.strategies = []) :
    Breaks d before m (.missingStrategy m)
  | multipleStrategies (hcarrier : m.isCarrier = true) (hstrategies : 2 ≤ m.strategies.length) :
    Breaks d before m (.multipleStrategies m)
  | missingCompanionEquals (hcustom : m.isCustom = true)
    (hnone : ¬ ∃ f ∈ d.functions, f.isStatic = true ∧ f.name = equalsCompanion m.name) :
    Breaks d before m (.missingCompanionEquals m)
  | missingCompanionHash (hcustom : m.isCustom = true)
    (hnone : ¬ ∃ f ∈ d.functions, f.isStatic = true ∧ f.name = hashCompanion m.name) :
    Breaks d before m (.missingCompanionHash m)
  /-- The first of the earlier members with the same companions is named. -/
  | duplicateCompanionNames {front between : List Member} {first : Member}
    (hcustom : m.isCustom = true) (hbefore : before = front ++ first :: between)
    (hshares : m.sharesCompanions first = true)
    (hfirst : ∀ o ∈ front, m.sharesCompanions o = false) :
    Breaks d before m (.duplicateCompanionNames m first)
  | sequenceOnNonSequence (hcarrier : m.isCarrier = true)
    (hsequence : m.hasOnly Strategy.isSequence = true) (htype : m.type.isSequence = false) :
    Breaks d before m (.sequenceOnNonSequence m)
  | mutableField (hcarrier : m.isCarrier = true) (hignore : m.hasOnly Strategy.isIgnore = false)
    (hkind : m.kind = .field) (hreadonly : m.readonly = false) :
    Breaks d before m (.mutableField m)
  | mutableProperty (hcarrier : m.isCarrier = true)
    (hignore : m.hasOnly Strategy.isIgnore = false) (hkind : m.kind = .property)
    (hsetter : m.setter = .set) : Breaks d before m (.mutableProperty m)

end Member

/-! ## The check of a member -/

namespace ClassDeclaration

variable {d : ClassDeclaration} {m : Member} {i : Nat} {v : Violation}

theorem hasStaticFunction_iff {name : Bytes} :
    d.hasStaticFunction name = true ↔ ∃ f ∈ d.functions, f.isStatic = true ∧ f.name = name := by
  simp [hasStaticFunction]

theorem companionOwner?_eq_some_iff {first : Member} :
    d.companionOwner? i m = some first ↔ ∃ front between,
      d.members.take i = front ++ first :: between ∧ m.sharesCompanions first = true ∧
        ∀ o ∈ front, m.sharesCompanions o = false := by
  have hshares (o : Member) : (isCustomMember o && companionSuffix o.name ==
      companionSuffix m.name) = m.sharesCompanions o := by
    rw [Member.isCustomMember_eq, Member.sharesCompanions]
  simp only [companionOwner?, hshares, List.find?_eq_some_iff_append, Bool.not_eq_true']
  constructor
  · rintro ⟨hfirst, front, between, hmembers, hfront⟩
    exact ⟨front, between, hmembers, hfirst, hfront⟩
  · rintro ⟨front, between, hmembers, hfirst, hfront⟩
    exact ⟨hfirst, front, between, hmembers, hfront⟩

theorem mem_companionViolations_iff {owner? : Option Member} :
    v ∈ d.companionViolations owner? m ↔
      (v = .missingCompanionEquals m ∧
        ¬ ∃ f ∈ d.functions, f.isStatic = true ∧ f.name = equalsCompanion m.name) ∨
      (v = .missingCompanionHash m ∧
        ¬ ∃ f ∈ d.functions, f.isStatic = true ∧ f.name = hashCompanion m.name) ∨
      ∃ first, v = .duplicateCompanionNames m first ∧ owner? = some first := by
  rw [← hasStaticFunction_iff, ← hasStaticFunction_iff, companionViolations, List.mem_append,
    List.mem_append, or_assoc]
  refine or_congr ?_ (or_congr ?_ ?_)
  · split <;> simp_all
  · split <;> simp_all
  · cases owner? <;> simp

theorem isIgnored_eq (m : Member) : isIgnored m = m.hasOnly Strategy.isIgnore := rfl

theorem mem_mutabilityViolations_iff :
    v ∈ mutabilityViolations m ↔ m.hasOnly Strategy.isIgnore = false ∧
      ((v = .mutableField m ∧ m.kind = .field ∧ m.readonly = false) ∨
        (v = .mutableProperty m ∧ m.kind = .property ∧ m.setter = .set)) := by
  rw [mutabilityViolations, isIgnored_eq]
  split
  · simp_all
  · split
    · simp_all
    · split <;> simp_all

theorem mem_strategyViolations_iff :
    v ∈ d.strategyViolations i m ↔
      (v = .missingStrategy m ∧ m.strategies = []) ∨
      (v = .multipleStrategies m ∧ 2 ≤ m.strategies.length) ∨
      (v = .sequenceOnNonSequence m ∧ m.hasOnly Strategy.isSequence = true ∧
        m.type.isSequence = false) ∨
      (m.hasOnly Strategy.isCustom = true ∧
        v ∈ d.companionViolations (d.companionOwner? i m) m) := by
  rw [strategyViolations, Member.hasOnly, Member.hasOnly]
  split
  · rename_i hstrategies
    simp [hstrategies]
  · rename_i a hstrategies
    obtain ⟨s, l⟩ := a
    rw [hstrategies]
    cases s with
    | sequence order orderMatters deep =>
      rw [useViolations]
      cases m.type.isSequence <;> simp [Strategy.isSequence, Strategy.isCustom]
    | _ => simp [useViolations, Strategy.isSequence, Strategy.isCustom]
  · rename_i hstrategies
    simp [hstrategies]

theorem mem_memberViolations_cases :
    v ∈ d.memberViolations i m ↔
      (v = .strategyOnUnsupportedMember m ∧ m.isStatic = false ∧ m.eligible = false ∧
        m.strategies ≠ []) ∨
      (m.isCarrier = true ∧ (v ∈ d.strategyViolations i m ∨ v ∈ mutabilityViolations m)) := by
  rw [memberViolations, Member.isCarrier]
  cases m.isStatic with
  | true => simp
  | false =>
    cases m.eligible with
    | true => simp
    | false => cases m.strategies <;> simp

/-- The check of a member reports the rules that the member breaks. -/
theorem mem_memberViolations_iff :
    v ∈ d.memberViolations i m ↔ m.Breaks d (d.members.take i) v := by
  have hcustom : m.isCustom = true ↔ m.isCarrier = true ∧ m.hasOnly Strategy.isCustom = true :=
    Bool.and_eq_true_iff
  rw [mem_memberViolations_cases, mem_strategyViolations_iff, mem_companionViolations_iff,
    mem_mutabilityViolations_iff]
  constructor
  · rintro (⟨rfl, hstatic, heligible, hstrategies⟩ | ⟨hcarrier, hstrategy | hmutable⟩)
    · exact .strategyOnUnsupportedMember hstatic heligible hstrategies
    · rcases hstrategy with ⟨rfl, hstrategies⟩ | ⟨rfl, hstrategies⟩ | ⟨rfl, hsequence, htype⟩ |
        ⟨honly, ⟨rfl, hnone⟩ | ⟨rfl, hnone⟩ | ⟨first, rfl, howner⟩⟩
      · exact .missingStrategy hcarrier hstrategies
      · exact .multipleStrategies hcarrier hstrategies
      · exact .sequenceOnNonSequence hcarrier hsequence htype
      · exact .missingCompanionEquals (hcustom.2 ⟨hcarrier, honly⟩) hnone
      · exact .missingCompanionHash (hcustom.2 ⟨hcarrier, honly⟩) hnone
      · obtain ⟨front, between, hbefore, hshares, hfirst⟩ :=
          companionOwner?_eq_some_iff.1 howner
        exact .duplicateCompanionNames (hcustom.2 ⟨hcarrier, honly⟩) hbefore hshares hfirst
    · rcases hmutable with ⟨hignore, ⟨rfl, hkind, hreadonly⟩ | ⟨rfl, hkind, hsetter⟩⟩
      · exact .mutableField hcarrier hignore hkind hreadonly
      · exact .mutableProperty hcarrier hignore hkind hsetter
  · intro h
    cases h with
    | strategyOnUnsupportedMember hstatic heligible hstrategies =>
      exact .inl ⟨rfl, hstatic, heligible, hstrategies⟩
    | missingStrategy hcarrier hstrategies =>
      exact .inr ⟨hcarrier, .inl (.inl ⟨rfl, hstrategies⟩)⟩
    | multipleStrategies hcarrier hstrategies =>
      exact .inr ⟨hcarrier, .inl (.inr (.inl ⟨rfl, hstrategies⟩))⟩
    | sequenceOnNonSequence hcarrier hsequence htype =>
      exact .inr ⟨hcarrier, .inl (.inr (.inr (.inl ⟨rfl, hsequence, htype⟩)))⟩
    | missingCompanionEquals h hnone =>
      obtain ⟨hcarrier, honly⟩ := hcustom.1 h
      exact .inr ⟨hcarrier, .inl (.inr (.inr (.inr ⟨honly, .inl ⟨rfl, hnone⟩⟩)))⟩
    | missingCompanionHash h hnone =>
      obtain ⟨hcarrier, honly⟩ := hcustom.1 h
      exact .inr ⟨hcarrier, .inl (.inr (.inr (.inr ⟨honly, .inr (.inl ⟨rfl, hnone⟩)⟩)))⟩
    | duplicateCompanionNames h hbefore hshares hfirst =>
      obtain ⟨hcarrier, honly⟩ := hcustom.1 h
      have howner := companionOwner?_eq_some_iff.2 ⟨_, _, hbefore, hshares, hfirst⟩
      exact .inr ⟨hcarrier, .inl (.inr (.inr (.inr ⟨honly, .inr (.inr ⟨_, rfl, howner⟩)⟩)))⟩
    | mutableField hcarrier hignore hkind hreadonly =>
      exact .inr ⟨hcarrier, .inr ⟨hignore, .inl ⟨rfl, hkind, hreadonly⟩⟩⟩
    | mutableProperty hcarrier hignore hkind hsetter =>
      exact .inr ⟨hcarrier, .inr ⟨hignore, .inr ⟨rfl, hkind, hsetter⟩⟩⟩

/-- The rules on a member, in the order in which they are checked. -/
def memberRules : List Rule :=
  [.strategyOnUnsupportedMember, .missingStrategy, .multipleStrategies, .missingCompanionEquals,
    .missingCompanionHash, .duplicateCompanionNames, .sequenceOnNonSequence, .mutableField,
    .mutableProperty]

theorem rules_memberViolations_sublist (d : ClassDeclaration) (i : Nat) (m : Member) :
    ((d.memberViolations i m).map Violation.rule).Sublist memberRules := by
  have hcompanion : ((d.companionViolations (d.companionOwner? i m) m).map
      Violation.rule).Sublist
        [.missingCompanionEquals, .missingCompanionHash, .duplicateCompanionNames] := by
    rw [companionViolations]
    split <;> split <;> cases d.companionOwner? i m <;> simp [Violation.rule]
  have hmutability : ((mutabilityViolations m).map Violation.rule).Sublist
      [.mutableField, .mutableProperty] := by
    rw [mutabilityViolations]
    split
    · simp
    · split
      · simp [Violation.rule]
      · split <;> simp [Violation.rule]
  have hstrategy : ((d.strategyViolations i m).map Violation.rule).Sublist
      [.missingStrategy, .multipleStrategies, .missingCompanionEquals, .missingCompanionHash,
        .duplicateCompanionNames, .sequenceOnNonSequence] := by
    rw [strategyViolations]
    split
    · simp [Violation.rule]
    · rw [useViolations.eq_def]
      split
      · exact hcompanion.trans (by decide)
      · split <;> simp [Violation.rule]
      · simp
      · simp
    · simp [Violation.rule]
  rw [memberViolations]
  split
  · exact List.nil_sublist _
  · split
    · split <;> simp [Violation.rule, memberRules]
    · rw [List.map_append]
      exact (hstrategy.append hmutability).trans (by decide)

theorem nodup_memberViolations (d : ClassDeclaration) (i : Nat) (m : Member) :
    ((d.memberViolations i m).map Violation.rule).Nodup :=
  (by decide : memberRules.Nodup).sublist (d.rules_memberViolations_sublist i m)

end ClassDeclaration

end Equate
