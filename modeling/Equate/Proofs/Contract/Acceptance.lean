import Equate.Proofs.Contract.Report
/-!
# Which classes get a contract

A check succeeds if nothing worse than a warning is reported (`success_check_iff`). For a value
object this asks for certain things of the class and of each member by itself (`Member.Conforms`).
A contract goes to the wrappers, of which nothing is asked, and to the value objects that conform.
-/

namespace Equate

/-- What the rules demand of a member of the value object `d`, where `before` are the members
declared in front of it. -/
def Member.Conforms (d : ClassDeclaration) (before : List Member) (m : Member) : Prop :=
  if m.kind = .method ∨ m.computed = true then m.strategies = []
  else
    m.strategies.length ≤ 1 ∧
    (m.hasOnly Strategy.isSequence = true → m.type.isSequence = true) ∧
    (m.hasOnly Strategy.isCustom = true →
      (∃ f ∈ d.functions, f.isStatic = true ∧ f.name = utf8 "Equals_" ++ companionSuffix m.name) ∧
      (∃ f ∈ d.functions,
        f.isStatic = true ∧ f.name = utf8 "GetHashCode_" ++ companionSuffix m.name) ∧
      ∀ o ∈ before, o.isCustom = true → companionSuffix o.name ≠ companionSuffix m.name)

namespace Member

variable {d : ClassDeclaration} {before : List Member} {m : Member}

theorem eligible_eq_false_iff : m.eligible = false ↔ m.kind = .method ∨ m.computed = true := by
  cases hkind : m.kind <;> cases hcomputed : m.computed <;> simp [eligible, hkind, hcomputed]

theorem sharesCompanions_iff {o : Member} :
    m.sharesCompanions o = true ↔
      o.isCustom = true ∧ companionSuffix o.name = companionSuffix m.name := by
  rw [sharesCompanions, Bool.and_eq_true, beq_iff_eq]

/-- Of the members that share their companions with a later one, there is a first. -/
theorem exists_first_sharing {o : Member} (ho : o ∈ before)
    (hshares : m.sharesCompanions o = true) :
    ∃ front first between, before = front ++ first :: between ∧
      m.sharesCompanions first = true ∧ ∀ o ∈ front, m.sharesCompanions o = false := by
  obtain ⟨first, hfirst⟩ := Option.isSome_iff_exists.1 (List.find?_isSome.2 ⟨o, ho, hshares⟩)
  obtain ⟨hfirst, front, between, hbefore, hfront⟩ := List.find?_eq_some_iff_append.1 hfirst
  exact ⟨front, first, between, hbefore, hfirst, fun o ho => by simpa using hfront o ho⟩

/-- A member that cannot carry a strategy is reported for nothing but having one. -/
theorem Breaks.of_not_eligible {v : Violation} (heligible : m.eligible = false)
    (h : m.Breaks d before v) : m.strategies ≠ [] := by
  have hcarrier : ¬ m.isCarrier = true := by simp [isCarrier, heligible]
  have hcustom : ¬ m.isCustom = true := by simp [isCustom, hcarrier]
  cases h <;> first | assumption | contradiction

theorem Breaks.isStatic_eq_false {v : Violation} (h : m.Breaks d before v) :
    m.isStatic = false := by
  have hcarrier (h : m.isCarrier = true) : m.isStatic = false := (isCarrier_iff.1 h).1
  have hcustom (h : m.isCustom = true) : m.isStatic = false :=
    hcarrier (Bool.and_eq_true_iff.1 h).1
  cases h <;> first | assumption | exact hcarrier ‹_› | exact hcustom ‹_›

/-- A member conforms if it is reported for nothing but warnings. -/
theorem conforms_iff (hstatic : m.isStatic = false) :
    m.Conforms d before ↔ ∀ v, m.Breaks d before v → v.rule.severity = .warning := by
  rw [Conforms]
  split
  · rename_i hno
    have heligible : m.eligible = false := eligible_eq_false_iff.2 hno
    constructor
    · exact fun hstrategies v hv => absurd hstrategies (hv.of_not_eligible heligible)
    · intro hwarnings
      refine Decidable.byContradiction fun hstrategies => ?_
      cases hwarnings _ (.strategyOnUnsupportedMember hstatic heligible hstrategies)
  · rename_i hyes
    have heligible : m.eligible = true := by
      rw [← eligible_eq_false_iff] at hyes
      simpa using hyes
    have hcarrier : m.isCarrier = true := isCarrier_iff.2 ⟨hstatic, heligible⟩
    have hcustom : m.isCustom = true ↔ m.hasOnly Strategy.isCustom = true := by
      rw [isCustom, hcarrier, Bool.true_and]
    constructor
    · rintro ⟨hlength, hsequence, hcompanions⟩ v hv
      cases hv with
      | missingStrategy | mutableField | mutableProperty => rfl
      | strategyOnUnsupportedMember _ hnot => rw [heligible] at hnot; cases hnot
      | multipleStrategies _ htwo => omega
      | sequenceOnNonSequence _ honly htype => rw [hsequence honly] at htype; cases htype
      | missingCompanionEquals h hnone => exact absurd (hcompanions (hcustom.1 h)).1 hnone
      | missingCompanionHash h hnone => exact absurd (hcompanions (hcustom.1 h)).2.1 hnone
      | duplicateCompanionNames h hbefore hshares =>
        obtain ⟨hfirst, hname⟩ := sharesCompanions_iff.1 hshares
        exact absurd hname ((hcompanions (hcustom.1 h)).2.2 _ (by simp [hbefore]) hfirst)
    · intro hwarnings
      -- Each demand is met, as the rule behind it would be broken with an error otherwise.
      refine ⟨?_, fun honly => ?_, fun honly => ⟨?_, ?_, fun o ho hother hname => ?_⟩⟩
      · refine Nat.le_of_not_lt fun htwo => ?_
        cases hwarnings _ (.multipleStrategies hcarrier htwo)
      · refine Decidable.byContradiction fun htype => ?_
        cases hwarnings _ (.sequenceOnNonSequence hcarrier honly (by simpa using htype))
      · refine Decidable.byContradiction fun hnone => ?_
        cases hwarnings _ (.missingCompanionEquals (hcustom.2 honly) hnone)
      · refine Decidable.byContradiction fun hnone => ?_
        cases hwarnings _ (.missingCompanionHash (hcustom.2 honly) hnone)
      · obtain ⟨front, first, between, hbefore, hshares, hfirst⟩ :=
          exists_first_sharing ho (sharesCompanions_iff.2 ⟨hother, hname⟩)
        cases hwarnings _ (.duplicateCompanionNames (hcustom.2 honly) hbefore hshares hfirst)

end Member

namespace ClassDeclaration

variable {fixHints : Bool} {d : ClassDeclaration}

theorem success_check_iff :
    (d.check fixHints).report.success = true ↔ ∀ v ∈ d.violations, v.rule.severity = .warning := by
  rw [check_eq, success_conclude_iff]

theorem contract?_check_eq_some_iff {c : Contract} :
    (d.check fixHints).contract? = some c ↔
      (d.check fixHints).report.success = true ∧ d.requestedContract? = some c := by
  rw [check_eq, conclude]
  exact Option.ite_none_right_eq_some

theorem isSome_contract?_check : (d.check fixHints).contract?.isSome = true ↔
    (d.check fixHints).report.success = true ∧ d.requestedContract?.isSome = true := by
  simp only [Option.isSome_iff_exists, contract?_check_eq_some_iff, exists_and_left]

/-- Whatever is wrong with a wrapper asks for attention only. -/
theorem severity_of_mem_wrapperViolations {v : Violation} (h : v ∈ d.wrapperViolations) :
    v.rule.severity = .warning := by
  rw [wrapperViolations, List.mem_append] at h
  rcases h with h | h
  · split at h
    · rw [List.mem_singleton.1 h]; rfl
    · cases h
  · obtain ⟨m, -, rfl⟩ := List.mem_map.1 h
    rfl

theorem severity_of_mem_orderViolations {v : Violation} (h : v ∈ d.orderViolations) :
    v.rule.severity = .warning := by
  obtain ⟨orders, -, -, horders⟩ := d.orderViolations_eq
  rw [horders] at h
  obtain ⟨order, -, rfl⟩ := List.mem_map.1 h
  rfl

/-- The violations of members, each with what stands around the member. -/
theorem mem_zipIdx_memberViolations_iff {v : Violation} :
    (v ∈ d.members.zipIdx.flatMap fun (m, i) => d.memberViolations i m) ↔
      ∃ before m after, d.members = before ++ m :: after ∧ m.Breaks d before v := by
  rw [List.mem_flatMap]
  constructor
  · rintro ⟨⟨m, i⟩, hm, hv⟩
    obtain ⟨hi, hm⟩ := List.mem_zipIdx' hm
    have hmembers : d.members = d.members.take i ++ m :: d.members.drop (i + 1) := by
      rw [hm, ← List.drop_eq_getElem_cons, List.take_append_drop]
    exact ⟨_, m, _, hmembers, mem_memberViolations_iff.1 hv⟩
  · rintro ⟨before, m, after, hmembers, hv⟩
    refine ⟨(m, before.length), ?_, ?_⟩
    · simp [hmembers, List.mk_mem_zipIdx_iff_getElem?]
    · rwa [mem_memberViolations_iff, hmembers, List.take_left]

theorem mem_valueObjectViolations_of_breaks {before after : List Member} {m : Member}
    {v : Violation} (hmembers : d.members = before ++ m :: after) (hv : m.Breaks d before v) :
    v ∈ d.valueObjectViolations :=
  List.mem_append_left _ <| List.mem_append_right _ <|
    mem_zipIdx_memberViolations_iff.2 ⟨before, m, after, hmembers, hv⟩

theorem valueObjectViolations_warnings_iff :
    (∀ v ∈ d.valueObjectViolations, v.rule.severity = .warning) ↔
      d.extensible = true ∧ ∀ before m after, d.members = before ++ m :: after →
        m.isStatic = false → m.Conforms d before := by
  constructor
  · intro hwarnings
    refine ⟨?_, fun before m after hmembers hstatic => ?_⟩
    · cases hextensible : d.extensible with
      | true => rfl
      | false =>
        refine absurd (hwarnings .notExtensible ?_) nofun
        simp [valueObjectViolations, hextensible]
    · exact (Member.conforms_iff hstatic).2 fun v hv =>
        hwarnings v (mem_valueObjectViolations_of_breaks hmembers hv)
  · rintro ⟨hextensible, hconforms⟩ v hv
    rw [valueObjectViolations, hextensible, if_pos rfl, List.nil_append, List.mem_append,
      mem_zipIdx_memberViolations_iff] at hv
    rcases hv with ⟨before, m, after, hmembers, hv⟩ | hv
    · have hstatic := hv.isStatic_eq_false
      exact (Member.conforms_iff hstatic).1 (hconforms before m after hmembers hstatic) v hv
    · exact severity_of_mem_orderViolations hv

/-- The wrappers and the conforming value objects get a contract, and no other class does. -/
theorem contract?_isSome_iff (fixHints : Bool) (d : ClassDeclaration) :
    ((d.check fixHints).contract?.isSome = true ↔
      (∃ wrapped, d.base = .wrapper wrapped) ∨
      (d.marker?.isSome = true ∧ d.base = .valueObject ∧ d.extensible = true ∧
        ∀ before m after, d.members = before ++ m :: after → m.isStatic = false →
          m.Conforms d before)) ∧
    ((d.check fixHints).report.success = false ↔ (d.check fixHints).report.errors ≠ []) ∧
    (d.marker? = none → (∀ wrapped, d.base ≠ .wrapper wrapped) →
      (d.check fixHints).contract? = none) := by
  have hsuccess : (d.check fixHints).report.success = false ↔
      (d.check fixHints).report.errors ≠ [] := by
    rw [← Bool.not_eq_true, report_check, Report.success_ofList_iff_errors]
  rw [isSome_contract?_check, success_check_iff, violations, requestedContract?]
  refine ⟨?_, hsuccess, fun hmarker hbase => ?_⟩
  · cases hbase : d.base with
    | wrapper wrapped => simpa using fun v => severity_of_mem_wrapperViolations
    | valueObject =>
      cases hmarker : d.marker? with
      | none => simp
      | some l => simpa using valueObjectViolations_warnings_iff
    | other => cases d.marker? <;> simp
  · refine Option.not_isSome_iff_eq_none.1 fun hsome => ?_
    have hrequested := (isSome_contract?_check.1 hsome).2
    rw [requestedContract?, hmarker] at hrequested
    cases hd : d.base with
    | wrapper wrapped => exact hbase wrapped hd
    | valueObject | other => rw [hd] at hrequested; cases hrequested

/-- A value object that conforms: what is static, a method or computed does not take part, and
what is reported of `notes` are warnings. -/
def ledger : ClassDeclaration :=
  { name := "Ledger"
    extensible := true
    marker? := some ⟨1, 1⟩
    base := .valueObject
    members := [
      { name := "_owner", kind := .property, strategies := [⟨.custom none, ⟨2, 1⟩⟩] },
      { name := "count", kind := .field, isStatic := true,
        strategies := [⟨.custom none, ⟨3, 1⟩⟩, ⟨.ignore, ⟨3, 2⟩⟩] },
      { name := "entries", kind := .field, type := .sequence .list .text, readonly := true,
        strategies := [⟨.sequence (some 1) true true, ⟨4, 1⟩⟩] },
      { name := "total", kind := .method },
      { name := "last", kind := .property, computed := true },
      { name := "notes", kind := .field }]
    functions := [⟨"Equals_Owner", true, ⟨8, 1⟩⟩, ⟨"GetHashCode_Owner", true, ⟨9, 1⟩⟩] }

theorem contract?_ledger :
    (ledger.check true).contract?.isSome = true ∧
      (∀ before m after, ledger.members = before ++ m :: after → m.isStatic = false →
        m.Conforms ledger before) ∧
      ({ ledger with marker? := none }.check true).contract? = none := by
  have haccepted : (ledger.check true).contract?.isSome = true := by decide +kernel
  refine ⟨haccepted, ?_, (contract?_isSome_iff true { ledger with marker? := none }).2.2 rfl nofun⟩
  rcases (contract?_isSome_iff true ledger).1.1 haccepted with ⟨_, hbase⟩ | ⟨-, -, -, hconforms⟩
  · cases hbase
  · exact hconforms

end ClassDeclaration

end Equate
