import Equate.Proofs.Contract.Rules
/-!
# Reports on value objects

The report on a value object names every broken rule: first that of the class itself, then those
of each member in turn, and last the places in the evaluation order that several members ask for.
`RuleReport` says so rule by rule.
-/

namespace Equate

/-! ## Reports on classes -/

theorem Violation.filter_severity (rep : Reporter) (d : ClassDeclaration) (vs : List Violation)
    (severity : Severity) :
    (vs.map (Violation.diagnostic rep d)).filter (·.severity == severity) =
      (vs.filter fun v => v.rule.severity == severity).map (Violation.diagnostic rep d) := by
  rw [List.filter_map]
  congr 1
  exact List.filter_congr fun v _ => by rw [Function.comp_apply, v.severity_diagnostic]

/-- To keep only one of several strategies is offered once for each of their kinds. -/
theorem Violation.keys_multipleStrategies (rep : Reporter) (d : ClassDeclaration) (m : Member) :
    ((multipleStrategies m).diagnostic rep d).fixes.map Fix.key =
      if rep.fixHints then
        (m.strategies.map fun a => a.strategy.name).eraseDups.map (utf8 "keep-only-" ++ ·)
      else [] := by
  simp only [diagnostic, Reporter.diagnose, Reporter.diagnostic, fixes]
  split
  · rw [List.map_map]
    rfl
  · rfl

theorem Violation.nodup_keys_multipleStrategies (rep : Reporter) (d : ClassDeclaration)
    (m : Member) : (((multipleStrategies m).diagnostic rep d).fixes.map Fix.key).Nodup := by
  rw [keys_multipleStrategies]
  split
  · exact List.Pairwise.map _ (fun _ _ hne heq => hne (List.append_cancel_left heq))
      (nodup_eraseDups _)
  · exact .nil

theorem Violation.mem_keys_multipleStrategies (rep : Reporter) (d : ClassDeclaration) (m : Member)
    (key : Bytes) :
    key ∈ ((multipleStrategies m).diagnostic rep d).fixes.map Fix.key ↔
      rep.fixHints = true ∧
        ∃ a ∈ m.strategies, key = utf8 "keep-only-" ++ a.strategy.name := by
  rw [keys_multipleStrategies]
  split
  · rename_i hhints
    rw [List.mem_map]
    constructor
    · rintro ⟨kind, hkind, rfl⟩
      obtain ⟨a, ha, rfl⟩ := List.mem_map.1 (List.mem_eraseDups.1 hkind)
      exact ⟨hhints, a, ha, rfl⟩
    · rintro ⟨-, a, ha, rfl⟩
      exact ⟨_, List.mem_eraseDups.2 (List.mem_map_of_mem ha), rfl⟩
  · rename_i hhints
    simp [hhints]

namespace ClassDeclaration

variable {d : ClassDeclaration}

/-! ## Places in the evaluation order -/

theorem filter_asking {α : Type} (ask : α → Option Int) (order : Int) (xs : List α) :
    ((xs.filterMap fun x => (ask x).map (·, x)).filter fun e => e.1 == order).map Prod.snd =
      xs.filter fun x => ask x == some order := by
  induction xs with
  | nil => rfl
  | cons x xs ih =>
    cases hask : ask x with
    | none => simpa [hask] using ih
    | some o =>
      by_cases ho : o = order
      · simp [hask, ho, ih]
      · simp [hask, ho, ih]

theorem members_asking (d : ClassDeclaration) (order : Int) :
    (d.orderedMembers.filter fun e => e.1 == order).map Prod.snd =
      d.members.filter (Member.asksFor order) := by
  refine (filter_asking (fun m => m.strategy?.bind Strategy.order?) order d.members).trans ?_
  refine List.filter_congr fun m _ => ?_
  rw [Bool.eq_iff_iff, beq_iff_eq, Member.asksFor_iff]

theorem orderViolations_eq (d : ClassDeclaration) :
    ∃ orders : List Int, orders.Pairwise (· < ·) ∧
      (∀ order, order ∈ orders ↔ 2 ≤ (d.members.filter (Member.asksFor order)).length) ∧
      d.orderViolations = orders.map fun order =>
        .duplicateOrder order (d.members.filter (Member.asksFor order)) := by
  obtain ⟨orders, hascending, hmem, heq⟩ := groupByKey_eq Prod.fst d.orderedMembers
  let shared (order : Int) : Bool := decide (2 ≤ (d.members.filter (Member.asksFor order)).length)
  have hlength (order : Int) : (d.orderedMembers.filter fun e => e.1 == order).length =
      (d.members.filter (Member.asksFor order)).length := by
    rw [← members_asking, List.length_map]
  refine ⟨orders.filter shared, hascending.filter _, fun order => ?_, ?_⟩
  · rw [List.mem_filter, decide_eq_true_iff, and_iff_right_iff_imp, hmem]
    intro htwo
    obtain ⟨e, he⟩ := List.exists_mem_of_length_pos
      (show 0 < (d.orderedMembers.filter fun e => e.1 == order).length by rw [hlength]; omega)
    obtain ⟨he, horder⟩ := List.mem_filter.1 he
    exact ⟨e, he, beq_iff_eq.1 horder⟩
  · rw [orderViolations, heq, List.filterMap_map, ← List.filterMap_eq_filter, List.map_filterMap]
    congr 1
    funext order
    simp only [Function.comp_apply, hlength, members_asking, Option.guard, shared]
    by_cases htwo : 2 ≤ (d.members.filter (Member.asksFor order)).length
    · simp [htwo, Nat.not_lt.2 htwo]
    · simp [htwo, Nat.not_le.1 htwo]

/-! ## The whole report -/

/-- What is reported of a value object: `ofMembers` of each member in turn, and each of the places
`orders` as one that several members ask for. -/
def reported (d : ClassDeclaration) (ofMembers : List (List Violation)) (orders : List Int) :
    List Violation :=
  (if d.extensible then [] else [.notExtensible]) ++ ofMembers.flatten ++
    orders.map fun order => .duplicateOrder order (d.members.filter (Member.asksFor order))

/-- A report on a value object, told rule by rule. -/
structure RuleReport (fixHints : Bool) (d : ClassDeclaration) (report : Report)
    (ofMembers : List (List Violation)) (orders : List Int) : Prop where
  errors : report.errors = ((d.reported ofMembers orders).filter fun v =>
    v.rule.severity == .error).map (Violation.diagnostic ⟨d.qualifiedName, fixHints⟩ d)
  warnings : report.warnings = ((d.reported ofMembers orders).filter fun v =>
    v.rule.severity == .warning).map (Violation.diagnostic ⟨d.qualifiedName, fixHints⟩ d)
  length : ofMembers.length = d.members.length
  /-- A member is reported for the rules that it breaks, and at most once for each of them. -/
  member : ∀ before m after, d.members = before ++ m :: after →
    ∃ own, ofMembers[before.length]? = some own ∧ (own.map Violation.rule).Nodup ∧
      ∀ v, v ∈ own ↔ m.Breaks d before v
  ascending : orders.Pairwise (· < ·)
  shared : ∀ order, order ∈ orders ↔ 2 ≤ (d.members.filter (Member.asksFor order)).length

theorem report_check (fixHints : Bool) (d : ClassDeclaration) :
    (d.check fixHints).report =
      .ofList (d.violations.map (Violation.diagnostic ⟨d.qualifiedName, fixHints⟩ d)) := by
  rw [check_eq, conclude]

theorem violations_of_valueObject (hmarker : d.marker?.isSome = true)
    (hbase : d.base = .valueObject) : d.violations = d.valueObjectViolations := by
  obtain ⟨l, hl⟩ := Option.isSome_iff_exists.1 hmarker
  rw [violations, hbase, hl]

/-- What is reported of a member stands where the member stands. -/
theorem getElem?_memberViolations {before after : List Member} {m : Member}
    (h : d.members = before ++ m :: after) :
    (d.members.zipIdx.map fun (m, i) => d.memberViolations i m)[before.length]? =
      some (d.memberViolations before.length m) := by
  simp [h]

/-- The report on a value object holds every broken rule once, and nothing else. Several strategies
of a member are noted one by one, and to keep only one of their kinds is offered once for each
kind. Of two members with the same companions, the first is noted. -/
theorem exists_ruleReport (fixHints : Bool) (hmarker : d.marker?.isSome = true)
    (hbase : d.base = .valueObject) :
    (∃ ofMembers orders, RuleReport fixHints d (d.check fixHints).report ofMembers orders) ∧
      (∀ v : Violation, (v.diagnostic ⟨d.qualifiedName, fixHints⟩ d).code = v.rule.code) ∧
      (∀ m : Member,
        let x := (Violation.multipleStrategies m).diagnostic ⟨d.qualifiedName, fixHints⟩ d
        x.notes = m.strategies.map (fun a =>
            ⟨utf8 "(" ++ a.strategy.name ++ utf8 ") declared here", a.location⟩) ∧
          (x.fixes.map Fix.key).Nodup ∧
          ∀ key, key ∈ x.fixes.map Fix.key ↔
            fixHints = true ∧ ∃ a ∈ m.strategies, key = utf8 "keep-only-" ++ a.strategy.name) ∧
      ∀ m first : Member,
        ((Violation.duplicateCompanionNames m first).diagnostic
            ⟨d.qualifiedName, fixHints⟩ d).notes =
          [⟨utf8 "'" ++ first.name ++ utf8 "'" ++ utf8 " declared here", first.location⟩] := by
  refine ⟨?_, fun _ => rfl, fun m => ⟨rfl, Violation.nodup_keys_multipleStrategies _ d m,
    Violation.mem_keys_multipleStrategies _ d m⟩, fun _ _ => rfl⟩
  obtain ⟨orders, hascending, hshared, horders⟩ := d.orderViolations_eq
  let ofMembers := d.members.zipIdx.map fun (m, i) => d.memberViolations i m
  have hviolations : d.violations = d.reported ofMembers orders := by
    rw [violations_of_valueObject hmarker hbase, valueObjectViolations, horders,
      List.flatMap_def, reported]
  refine ⟨ofMembers, orders, ?_, ?_, by simp [ofMembers], fun before m after h => ?_, hascending,
    hshared⟩
  · rw [report_check, Report.ofList_eq, hviolations]
    exact Violation.filter_severity _ d _ .error
  · rw [report_check, Report.ofList_eq, hviolations]
    exact Violation.filter_severity _ d _ .warning
  · refine ⟨_, getElem?_memberViolations h, d.nodup_memberViolations _ m, fun v => ?_⟩
    rw [mem_memberViolations_iff, h, List.take_left]

/-- A value object that breaks rules of every kind. -/
def crowded : ClassDeclaration :=
  let keep : PlacedStrategy := ⟨.include none, ⟨1, 1⟩⟩
  let byName (order? : Option Int) : PlacedStrategy := ⟨.custom order?, ⟨1, 2⟩⟩
  { name := "Crowded"
    marker? := some ⟨1, 1⟩
    base := .valueObject
    members := [
      { name := "_a", kind := .property, setter := .set, strategies := [byName none] },
      { name := "m_a", kind := .field, strategies := [byName (some 2)] },
      { name := "b", kind := .field, strategies := [keep, ⟨.ignore, ⟨1, 3⟩⟩, keep] },
      { name := "c", kind := .field, strategies := [⟨.sequence (some 2) true true, ⟨1, 4⟩⟩] },
      { name := "d", kind := .method, strategies := [keep] },
      { name := "e", kind := .field, readonly := true },
      { name := "f", kind := .field, isStatic := true, strategies := [keep, keep] }]
    functions := [⟨"GetHashCode_A", true, ⟨2, 1⟩⟩] }

theorem ruleReport_crowded :
    crowded.marker?.isSome = true ∧ crowded.base = .valueObject ∧
      (crowded.check true).report.errors.map Diagnostic.code =
        (["EQ001", "EQ003", "EQ003", "EQ009", "EQ005", "EQ006", "EQ015"] : List String).map utf8 ∧
      (crowded.check true).report.warnings.map Diagnostic.code =
        (["EQ010", "EQ011", "EQ011", "EQ011", "EQ002", "EQ013"] : List String).map utf8 ∧
      ∃ ofMembers orders, RuleReport true crowded (crowded.check true).report ofMembers orders :=
  ⟨rfl, rfl, by decide +kernel, by decide +kernel, (exists_ruleReport true rfl rfl).1⟩

end ClassDeclaration

end Equate
