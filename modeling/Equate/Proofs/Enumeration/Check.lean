import Equate.Proofs.Enumeration.Pass
/-!
# What is wrong with an enumeration

Whatever is wrong with an enumeration is an error. The literal constants are told one by one
(`violations_eq`): each is reported if an earlier one has its value, and if an earlier one has its
name, and in both cases the first of these is named (`FirstUse`). Nothing is wrong exactly if the
enumeration is extensible and its literals repeat no value and no name.
-/

namespace Equate

/-! ## First elements -/

/-- The first element with a property, if there is one. -/
inductive FirstWith {α : Type} (p : α → Prop) (xs : List α) : Option α → Prop where
  | found {front rear : List α} {x : α} (hxs : xs = front ++ x :: rear) (hx : p x)
    (hfront : ∀ y ∈ front, ¬ p y) : FirstWith p xs (some x)
  | missing (h : ∀ x ∈ xs, ¬ p x) : FirstWith p xs none

namespace FirstWith

variable {α : Type} {p : α → Prop} {xs : List α} {x : α} {found? : Option α}

theorem eq_none_iff (h : FirstWith p xs found?) : found? = none ↔ ∀ x ∈ xs, ¬ p x := by
  cases h with
  | found hxs hx =>
    refine ⟨nofun, fun hnone => absurd hx (hnone _ ?_)⟩
    rw [hxs]
    exact List.mem_append_right _ List.mem_cons_self
  | missing hnone => exact ⟨fun _ => hnone, fun _ => rfl⟩

theorem mem (h : FirstWith p xs (some x)) : x ∈ xs ∧ p x := by
  cases h with
  | found hxs hx =>
    subst hxs
    exact ⟨List.mem_append_right _ List.mem_cons_self, hx⟩

end FirstWith

theorem firstWith_find? {α : Type} {p : α → Prop} {test : α → Bool}
    (htest : ∀ x, test x = true ↔ p x) (xs : List α) : FirstWith p xs (xs.find? test) := by
  cases h : xs.find? test with
  | none => exact .missing fun x hx hp => List.find?_eq_none.1 h x hx ((htest x).2 hp)
  | some x =>
    obtain ⟨hx, front, rear, hxs, hfront⟩ := List.find?_eq_some_iff_append.1 h
    refine .found hxs ((htest x).1 hx) fun y hy hp => ?_
    simpa [(htest y).2 hp] using hfront y hy

/-! ## Repeated keys -/

/-- Which of the literal constants `before` is the first with the key of `c`, if there is one. -/
inductive FirstUse {α : Type} (key : LiteralConstant → α) (before : List LiteralConstant)
    (c : LiteralConstant) : Option LiteralConstant → Prop where
  | fresh (h : ∀ o ∈ before, key o ≠ key c) : FirstUse key before c none
  | taken {front between : List LiteralConstant} {first : LiteralConstant}
    (hbefore : before = front ++ first :: between) (hfirst : key first = key c)
    (hfront : ∀ o ∈ front, key o ≠ key c) : FirstUse key before c (some first)

section Keys

variable {α : Type} [BEq α] [LawfulBEq α] (key : LiteralConstant → α)

theorem firstUse_find? (before : List LiteralConstant) (c : LiteralConstant) :
    FirstUse key before c (before.find? fun o => key o == key c) := by
  have hfirst := firstWith_find? (fun o => beq_iff_eq (a := key o) (b := key c)) before
  generalize before.find? (fun o => key o == key c) = found? at hfirst ⊢
  cases hfirst with
  | found hbefore hsame hfront => exact .taken hbefore hsame hfront
  | missing hfresh => exact .fresh hfresh

/-- No key is repeated exactly if each is new behind the elements in front of it. -/
theorem nodup_map_iff {β : Type} (f : β → α) (xs : List β) :
    (xs.map f).Nodup ↔
      ∀ x i, (x, i) ∈ xs.zipIdx → (xs.take i).find? (fun y => f y == f x) = none := by
  rw [List.Nodup, List.pairwise_map, List.pairwise_iff_getElem]
  constructor
  · intro h x i hx
    apply List.find?_eq_none.2
    intro y hy hkey
    obtain ⟨hi, hxi⟩ := List.mem_zipIdx' hx
    obtain ⟨j, hj, rfl⟩ := List.mem_take_iff_getElem.1 hy
    exact h j i (by omega) hi (by omega) (hxi ▸ beq_iff_eq.1 hkey)
  · intro h i j hi hj hij hkey
    have hx : (xs[j], j) ∈ xs.zipIdx :=
      List.mk_mem_zipIdx_iff_getElem?.2 (List.getElem?_eq_getElem hj)
    have hy : xs[i] ∈ xs.take j := List.mem_take_iff_getElem.2 ⟨i, by omega, rfl⟩
    exact List.find?_eq_none.1 (h _ _ hx) _ hy (beq_iff_eq.2 hkey)

end Keys

namespace EnumDeclaration

variable {fixHints : Bool} {d e : EnumDeclaration}

/-! ## Violations -/

theorem literalViolations_eq_nil_iff {before : List LiteralConstant} {c : LiteralConstant} :
    literalViolations before c = [] ↔ (before.find? fun o => o.value == c.value) = none ∧
      (before.find? fun o => o.name == c.name) = none := by
  simp [literalViolations, LiteralConstant.clashes]

theorem violations_eq_nil_iff :
    d.violations = [] ↔ d.extensible = true ∧
      (d.literals.map LiteralConstant.value).Nodup ∧
      (d.literals.map LiteralConstant.name).Nodup := by
  have hextensible : (if d.extensible then [] else [EnumViolation.notExtensible]) = [] ↔
      d.extensible = true := by
    cases d.extensible <;> simp
  rw [nodup_map_iff, nodup_map_iff, violations, List.append_eq_nil_iff, hextensible,
    List.flatMap_eq_nil_iff]
  apply and_congr_right
  intro _
  constructor
  · intro h
    refine ⟨fun c i hc => ?_, fun c i hc => ?_⟩
    · exact (literalViolations_eq_nil_iff.1 (h (c, i) hc)).1
    · exact (literalViolations_eq_nil_iff.1 (h (c, i) hc)).2
  · intro ⟨hvalues, hnames⟩ (c, i) hc
    exact literalViolations_eq_nil_iff.2 ⟨hvalues c i hc, hnames c i hc⟩

/-! ## Reports and tables -/

/-- What is reported about the values and names of constants. -/
def clashes (fixHints : Bool) (d : EnumDeclaration) : List Diagnostic :=
  d.violations.map (EnumViolation.diagnostic ⟨d.qualifiedName, fixHints⟩ d)

theorem report_check (fixHints : Bool) (d : EnumDeclaration) :
    (d.check fixHints).report = ⟨(d.clashes fixHints).isEmpty, d.clashes fixHints, []⟩ := by
  rw [check_eq]
  exact Report.ofList_of_errors (List.forall_mem_map.2 fun v _ => severity_diagnostic _ v)

theorem table?_check_eq_some_iff {t : LookupTable} :
    (d.check fixHints).table? = some t ↔ d.violations = [] ∧ t = d.table := by
  have hsuccess : (d.check fixHints).report.success = true ↔ d.violations = [] := by
    rw [report_check, clashes, List.isEmpty_iff, List.map_eq_nil_iff]
  rw [← hsuccess, check_eq]
  rw [Option.ite_none_right_eq_some, Option.some.injEq, eq_comm (a := t)]

theorem map_declared_literals (d : EnumDeclaration) :
    d.literals.map LiteralConstant.declared =
      d.constants.filter fun c => c.literal?.isSome := by
  unfold literals
  induction d.constants with
  | nil => rfl
  | cons c cs ih =>
    cases h : c.literal? <;> simpa [LiteralConstant.ofDeclaration?, h, List.filterMap_cons] using ih

theorem literal?_of_mem_literals {c : LiteralConstant} (h : c ∈ d.literals) :
    c.declared.literal? = some (c.value, c.name) := by
  obtain ⟨declared, -, hc⟩ := List.mem_filterMap.1 h
  obtain ⟨⟨value, name⟩, hliteral, rfl⟩ := Option.map_eq_some_iff.1 hc
  exact hliteral

/-- Only the constants with literal arguments are looked at. -/
theorem literals_eq_of_filter_eq {cs : List ConstantDeclaration}
    (h : cs.filter (fun c => c.literal?.isSome) =
      d.constants.filter fun c => c.literal?.isSome) :
    ({ d with constants := cs } : EnumDeclaration).literals = d.literals := by
  have hfilter (e : EnumDeclaration) : e.literals =
      ({ e with constants := e.constants.filter fun c => c.literal?.isSome } :
        EnumDeclaration).literals := by
    unfold literals
    rw [List.filterMap_filter]
    congr 1
    funext c
    cases h : c.literal? <;> simp [LiteralConstant.ofDeclaration?, h]
  rw [hfilter { d with constants := cs }, hfilter d]
  dsimp only
  rw [h]

/-- A report on an enumeration, told constant by constant. -/
structure ClashReport (fixHints : Bool) (d : EnumDeclaration) (report : Report)
    (ofLiterals : List (List EnumViolation)) : Prop where
  errors : report.errors = ((if d.extensible then [] else [EnumViolation.notExtensible]) ++
    ofLiterals.flatten).map (EnumViolation.diagnostic ⟨d.qualifiedName, fixHints⟩ d)
  warnings : report.warnings = []
  length : ofLiterals.length = d.literals.length
  /-- A literal constant is reported for a value and then for a name that an earlier one has. -/
  literal : ∀ before c after, d.literals = before ++ c :: after → ∃ value? name?,
    FirstUse LiteralConstant.value before c value? ∧
    FirstUse LiteralConstant.name before c name? ∧
    ofLiterals[before.length]? = some ((value?.map (.duplicateValue c)).toList ++
      (name?.map (.duplicateName c)).toList)

theorem exists_clashReport (fixHints : Bool) (d : EnumDeclaration) :
    ∃ ofLiterals, ClashReport fixHints d (d.check fixHints).report ofLiterals := by
  refine ⟨d.literals.zipIdx.map fun p => literalViolations (d.literals.take p.2) p.1,
    ?_, ?_, by simp, ?_⟩
  · rw [report_check, clashes, violations, List.flatMap_def]
  · rw [report_check]
  · intro before c after h
    refine ⟨_, _, firstUse_find? _ before c, firstUse_find? _ before c, ?_⟩
    simp [h, literalViolations, LiteralConstant.clashes]

/-- A table is made exactly if the enumeration is extensible and its literals repeat no value and
no name, and it lists them all. Otherwise every repeated value and every repeated name is an error
that points to its first use. Constants without literal arguments change nothing in that. -/
theorem table_or_clashes (fixHints : Bool) (d : EnumDeclaration) :
    let x := EnumViolation.diagnostic ⟨d.qualifiedName, fixHints⟩ d
    (d.literals.map LiteralConstant.declared =
        d.constants.filter (fun c => c.literal?.isSome) ∧
      ∀ c ∈ d.literals, c.declared.literal? = some (c.value, c.name)) ∧
    ((d.check fixHints).table?.isSome = true ↔ d.extensible = true ∧
      (d.literals.map LiteralConstant.value).Nodup ∧
      (d.literals.map LiteralConstant.name).Nodup) ∧
    ((d.check fixHints).table?.isSome = true ↔ (d.check fixHints).report.errors = []) ∧
    (∃ ofLiterals, ClashReport fixHints d (d.check fixHints).report ofLiterals) ∧
    ((x .notExtensible).code = utf8 "EN003" ∧ ∀ c first : LiteralConstant,
      (x (.duplicateValue c first)).code = utf8 "EN001" ∧
      (x (.duplicateValue c first)).location = c.declared.location ∧
      (x (.duplicateValue c first)).notes = [⟨utf8 "'" ++ first.declared.constant ++
        utf8 "' first uses value " ++ Bytes.ofInt c.value.toInt, first.declared.location⟩] ∧
      (x (.duplicateName c first)).code = utf8 "EN002" ∧
      (x (.duplicateName c first)).location = c.declared.location ∧
      (x (.duplicateName c first)).notes = [⟨utf8 "'" ++ first.declared.constant ++
        utf8 "' first uses name \"" ++ c.name ++ utf8 "\"", first.declared.location⟩]) ∧
    (∀ t, (d.check fixHints).table? = some t →
      t.entries = d.literals.map (fun c =>
        ⟨d.qualifiedName, c.declared.constant, c.value, c.name, c.declared.position⟩) ∧
      t.constants = d.constants.map ConstantDeclaration.constant) ∧
    ∀ cs : List ConstantDeclaration, cs.filter (fun c => c.literal?.isSome) =
        d.constants.filter (fun c => c.literal?.isSome) →
      ({ d with constants := cs }.check fixHints).report = (d.check fixHints).report := by
  intro x
  have htable : (d.check fixHints).table?.isSome = true ↔ d.violations = [] := by
    simp only [Option.isSome_iff_exists, table?_check_eq_some_iff, exists_and_left,
      exists_eq, and_true]
  refine ⟨⟨d.map_declared_literals, fun c => literal?_of_mem_literals⟩, ?_, ?_,
    exists_clashReport fixHints d, ⟨rfl, fun c first => ⟨rfl, rfl, rfl, rfl, rfl, rfl⟩⟩, ?_, ?_⟩
  · rw [htable, violations_eq_nil_iff]
  · rw [htable, report_check, clashes, List.map_eq_nil_iff]
  · intro t ht
    obtain ⟨-, rfl⟩ := table?_check_eq_some_iff.1 ht
    exact ⟨rfl, rfl⟩
  · intro cs hcs
    have hviolations : ({ d with constants := cs } : EnumDeclaration).violations =
        d.violations := by
      unfold violations
      rw [literals_eq_of_filter_eq hcs]
    have hname : ({ d with constants := cs } : EnumDeclaration).qualifiedName =
        d.qualifiedName := rfl
    have hdiagnostic (v : EnumViolation) :
        v.diagnostic ⟨d.qualifiedName, fixHints⟩ { d with constants := cs } =
          v.diagnostic ⟨d.qualifiedName, fixHints⟩ d := by
      cases v <;> rfl
    rw [report_check, report_check, clashes, clashes, hviolations, hname,
      funext hdiagnostic]

/-- Constants of which each repeats something of the ones in front of it, on both keys in turn. -/
def chained : EnumDeclaration :=
  { name := "Shade"
    constants := [
      ⟨"Red", some (1, "Red"), 0, ⟨2, 1⟩⟩, ⟨"Crimson", some (1, "Crimson"), 1, ⟨3, 1⟩⟩,
      ⟨"Next", none, 2, ⟨4, 1⟩⟩, ⟨"Scarlet", some (2, "Crimson"), 3, ⟨5, 1⟩⟩,
      ⟨"Rose", some (2, "Red"), 4, ⟨6, 1⟩⟩] }

/-- The same with the first and the third constant only. -/
def unchained : EnumDeclaration :=
  { chained with
    extensible := true
    constants := chained.constants.filter fun c => c.position % 2 == 0 && c.position < 4 }

theorem table_or_clashes_chained :
    (∃ ofLiterals, ClashReport true chained (chained.check true).report ofLiterals) ∧
      (chained.check true).report.errors.map (fun x => (x.code, x.location.line,
          x.notes.map fun n => n.location.line)) =
        [(utf8 "EN003", -1, []), (utf8 "EN001", 3, [2]), (utf8 "EN002", 5, [3]),
          (utf8 "EN001", 6, [5]), (utf8 "EN002", 6, [2])] ∧
      ({ chained with constants := chained.constants.filter fun c => c.literal?.isSome }.check
        true).report = (chained.check true).report ∧
      (unchained.check true).table? = some unchained.table ∧
      unchained.table.constants = [utf8 "Red", utf8 "Next"] := by
  obtain ⟨-, -, -, hreport, -, -, hcomputed⟩ := table_or_clashes true chained
  obtain ⟨-, -, -, -, -, htable, -⟩ := table_or_clashes true unchained
  have haccepted : (unchained.check true).table? = some unchained.table := by decide
  refine ⟨hreport, by decide, hcomputed _ ?_, haccepted, ?_⟩
  · rw [List.filter_filter]
    simp
  · exact (htable _ haccepted).2.trans (by decide)

end EnumDeclaration

end Equate
