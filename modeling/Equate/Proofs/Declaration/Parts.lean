import Equate.Proofs.Declaration.Members
/-!
# The parts of a declaration

What a form declares is put together from what its parts are read as: `ClassDeclaration.read_eq`
and `EnumDeclaration.read_eq`. The functions and constants come from some of the forms in their
vectors, in order, and a form that is left out leaves a finding in it. Whatever is reported about a
form is reported for one of the findings (`Declaration.exists_finding_of_mem_diagnostics`).
-/

namespace Equate

variable {form : Node} {f : Finding}

/-- What is found about the options of a declaration form while they are walked over. -/
def Node.optionFindings (form : Node) : List Finding :=
  Clause.booleanFindings ["partial"] form.clauses ++ form.stop

theorem within_of_mem_optionFindings (h : f ∈ form.optionFindings) : f.Within form :=
  (List.mem_append.1 h).elim within_of_mem_booleanFindings within_of_mem_stop

/-! ## Functions -/

namespace CompanionFunction

/-- Whether a function is what a form is read as. -/
structure ReadFrom (form : Node) (c : CompanionFunction) : Prop where
  location : c.location = form.location
  name : c.name = form.nameFor "name"
  name_ne_nil : c.name ≠ []

/-- A form is a function or leaves a finding. -/
theorem read_cases (form : Node) :
    (∃ c, (read form).2 = some c ∧ ReadFrom form c) ∨
      (read form).2 = none ∧ (read form).1 ≠ [] := by
  rw [read_eq]
  split
  · split
    · exact .inr ⟨rfl, by simp⟩
    · rename_i hname
      exact .inl ⟨_, rfl, rfl, rfl, hname⟩
  · exact .inr ⟨rfl, by simp⟩

variable {forms : List Node}

theorem exists_sublist (forms : List Node) :
    ∃ kept, kept.Sublist forms ∧
      List.Forall₂ ReadFrom kept (forms.filterMap fun form => (read form).2) := by
  induction forms with
  | nil => exact ⟨[], .slnil, .nil⟩
  | cons form rest ih =>
    obtain ⟨kept, hkept, hfunctions⟩ := ih
    rcases read_cases form with ⟨c, hc, hfrom⟩ | ⟨hnone, -⟩
    · rw [List.filterMap_cons_some (f := fun form => (read form).2) hc]
      exact ⟨form :: kept, hkept.cons_cons _, .cons hfrom hfunctions⟩
    · rw [List.filterMap_cons_none (f := fun form => (read form).2) hnone]
      exact ⟨kept, hkept.cons _, hfunctions⟩

theorem kept_or_exists_finding (hform : form ∈ forms) :
    (∃ c ∈ forms.filterMap fun form => (read form).2, ReadFrom form c) ∨
      ∃ f ∈ forms.flatMap fun form => (read form).1,
        ∃ n, Node.Occurs n form ∧ f.location = n.location := by
  rcases read_cases form with ⟨c, hc, hfrom⟩ | ⟨-, hfound⟩
  · exact .inl ⟨c, List.mem_filterMap.2 ⟨form, hform, hc⟩, hfrom⟩
  · obtain ⟨f, hf⟩ := List.exists_mem_of_ne_nil _ hfound
    exact .inr ⟨f, List.mem_flatMap.2 ⟨form, hform, hf⟩, (within_of_mem_read hf).location⟩

/-- Without findings every form is kept. -/
theorem forall₂_of_nil (h : (forms.flatMap fun form => (read form).1) = []) :
    List.Forall₂ ReadFrom forms (forms.filterMap fun form => (read form).2) := by
  refine forall₂_filterMap fun form hform => ?_
  rcases read_cases form with hread | ⟨-, hfound⟩
  · exact hread
  · exact absurd (List.flatMap_eq_nil_iff.1 h form hform) hfound

end CompanionFunction

/-! ## Constants -/

namespace ConstantDeclaration

/-- Whether a constant is what a form is read as, wherever it stands among the constants. -/
structure ReadFrom (form : Node) (c : ConstantDeclaration) : Prop where
  location : c.location = form.location
  constant : c.constant = form.nameFor "name"
  constant_ne_nil : c.constant ≠ []
  /-- The value and the name come together, from the two arguments of the constant. -/
  literal : ∀ value name, c.literal? = some (value, name) ↔
    ∃ args m m', Clause.value? "args" form.clauses = some args ∧
      args.elements? = some [.int m value, .str m' name]

theorem readLiteral?_eq_some_iff {args : Node} {value : Int64} {name : Bytes} :
    readLiteral? args = some (value, name) ↔
      ∃ m m', args.elements? = some [.int m value, .str m' name] := by
  unfold readLiteral?
  constructor
  · intro h
    split at h
    · rename_i helements
      cases h
      exact ⟨_, _, helements⟩
    · cases h
  · rintro ⟨m, m', helements⟩
    rw [helements]

/-- A form is a constant or leaves a finding. -/
theorem read_cases (position : Nat) (form : Node) :
    (∃ c, (read position form).2 = some c ∧ ReadFrom form c) ∨
      (read position form).2 = none ∧ (read position form).1 ≠ [] := by
  rw [read_eq]
  split
  · split
    · exact .inr ⟨rfl, by simp⟩
    · rename_i hname
      refine .inl ⟨_, rfl, rfl, rfl, hname, fun value name => ?_⟩
      simp only [Option.bind_eq_some_iff, readLiteral?_eq_some_iff, exists_and_left]
  · exact .inr ⟨rfl, by simp⟩

theorem readAll_cons (position : Nat) (form : Node) (rest : List Node) :
    (∃ c, (read position form).2 = some c ∧ ReadFrom form c ∧
      readAll position (form :: rest) =
        ((read position form).1 ++ (readAll (position + 1) rest).1,
          c :: (readAll (position + 1) rest).2)) ∨
      (read position form).1 ≠ [] ∧
        readAll position (form :: rest) =
          ((read position form).1 ++ (readAll position rest).1, (readAll position rest).2) := by
  rcases read_cases position form with ⟨c, hc, hfrom⟩ | ⟨hnone, hfound⟩
  · refine .inl ⟨c, hc, hfrom, ?_⟩
    rw [readAll]
    simp only [hc, Option.isSome_some, if_true, Option.toList_some, List.singleton_append]
  · refine .inr ⟨hfound, ?_⟩
    rw [readAll]
    simp only [hnone, Option.isSome_none, Bool.false_eq_true, if_false, Option.toList_none,
      List.nil_append]

theorem exists_sublist (position : Nat) (forms : List Node) :
    ∃ kept, kept.Sublist forms ∧ List.Forall₂ ReadFrom kept (readAll position forms).2 := by
  induction forms generalizing position with
  | nil => exact ⟨[], .slnil, .nil⟩
  | cons form rest ih =>
    rcases readAll_cons position form rest with ⟨c, -, hfrom, heq⟩ | ⟨-, heq⟩
    · obtain ⟨kept, hkept, hconstants⟩ := ih (position + 1)
      rw [heq]
      exact ⟨form :: kept, hkept.cons_cons _, .cons hfrom hconstants⟩
    · obtain ⟨kept, hkept, hconstants⟩ := ih position
      rw [heq]
      exact ⟨kept, hkept.cons _, hconstants⟩

theorem kept_or_exists_finding (position : Nat) {forms : List Node} (hform : form ∈ forms) :
    (∃ c ∈ (readAll position forms).2, ReadFrom form c) ∨
      ∃ f ∈ (readAll position forms).1, ∃ n, Node.Occurs n form ∧ f.location = n.location := by
  induction forms generalizing position with
  | nil => cases hform
  | cons x rest ih =>
    rcases readAll_cons position x rest with ⟨c, -, hfrom, heq⟩ | ⟨hfound, heq⟩
    · rw [heq]
      rcases List.mem_cons.1 hform with rfl | hform
      · exact .inl ⟨c, List.mem_cons_self, hfrom⟩
      · exact (ih (position + 1) hform).imp (.imp fun _ h => ⟨List.mem_cons_of_mem _ h.1, h.2⟩)
          (.imp fun _ h => ⟨List.mem_append_right _ h.1, h.2⟩)
    · rw [heq]
      rcases List.mem_cons.1 hform with rfl | hform
      · obtain ⟨f, hf⟩ := List.exists_mem_of_ne_nil _ hfound
        exact .inr ⟨f, List.mem_append_left _ hf, (within_of_mem_read hf).location⟩
      · exact (ih position hform).imp_right (.imp fun _ h => ⟨List.mem_append_right _ h.1, h.2⟩)

/-- Without findings every form is kept. -/
theorem forall₂_of_nil {position : Nat} {forms : List Node} (h : (readAll position forms).1 = []) :
    List.Forall₂ ReadFrom forms (readAll position forms).2 := by
  induction forms generalizing position with
  | nil => exact .nil
  | cons form rest ih =>
    rcases readAll_cons position form rest with ⟨c, -, hfrom, heq⟩ | ⟨hfound, heq⟩
    · rw [heq] at h ⊢
      exact .cons hfrom (ih (List.append_eq_nil_iff.1 h).2)
    · rw [heq] at h
      exact absurd (List.append_eq_nil_iff.1 h).1 hfound

/-- Constants are numbered as they are accepted: a form that is left out takes no place. -/
theorem map_position_readAll (position : Nat) (forms : List Node) :
    (readAll position forms).2.map ConstantDeclaration.position =
      List.range' position (readAll position forms).2.length := by
  induction forms generalizing position with
  | nil => rfl
  | cons form rest ih =>
    rcases readAll_cons position form rest with ⟨c, hc, -, heq⟩ | ⟨-, heq⟩
    · rw [heq, List.map_cons, List.length_cons, List.range'_succ, ih, position_eq_of_read hc]
    · rw [heq, ih]

end ConstantDeclaration

/-! ## Classes and enumerations -/

namespace ClassDeclaration

/-- What is found about the parts of a class form. -/
def partFindings (form : Node) : List Finding :=
  (vectorClause "attrs" form.clauses).1 ++ (ClassBase.read form.clauses).1 ++
    (vectorClause "members" form.clauses).1 ++
    (Member.readAll {} 0 (form.formsFor "members")).1 ++
    (vectorClause "functions" form.clauses).1 ++
    (form.formsFor "functions").flatMap fun f => (CompanionFunction.read f).1

/-- The class that a form tells of. -/
def ofForm (form : Node) : ClassDeclaration :=
  { name := form.nameFor "name"
    ns := form.nameFor "namespace"
    extensible := Clause.boolean "partial" false form.clauses
    marker? := ((form.formsFor "attrs").filter fun a => a.name == utf8 "value-object").getLast?.map
      Node.location
    base := (ClassBase.read form.clauses).2
    members := (Member.readAll {} 0 (form.formsFor "members")).2
    functions := (form.formsFor "functions").filterMap fun f => (CompanionFunction.read f).2
    location := form.location }

theorem read_eq (hhead : form.head = utf8 "class") :
    read form = if form.nameFor "name" = [] then
        ⟨form.optionFindings ++ [⟨.missingClassName, form.location, []⟩], [], none⟩
      else ⟨form.optionFindings, partFindings form, some (ofForm form)⟩ := by
  unfold read
  rw [← hhead]
  simp only [List.isEmpty_iff, List.flatMap_map, List.filterMap_map]
  rfl

end ClassDeclaration

namespace EnumDeclaration

/-- What is found about the parts of an enumeration form. -/
def partFindings (form : Node) : List Finding :=
  (vectorClause "constants" form.clauses).1 ++
    (ConstantDeclaration.readAll 0 (form.formsFor "constants")).1

/-- The enumeration that a form tells of. -/
def ofForm (form : Node) : EnumDeclaration :=
  { name := form.nameFor "name"
    ns := form.nameFor "namespace"
    extensible := Clause.boolean "partial" false form.clauses
    constants := (ConstantDeclaration.readAll 0 (form.formsFor "constants")).2
    location := form.location }

theorem read_eq (hhead : form.head = utf8 "enumeration") :
    read form = if form.nameFor "name" = [] then
        ⟨form.optionFindings ++ [⟨.missingEnumerationName, form.location, []⟩], [], none⟩
      else ⟨form.optionFindings, partFindings form, some (ofForm form)⟩ := by
  unfold read
  rw [← hhead]
  simp only [List.isEmpty_iff]
  rfl

end EnumDeclaration

/-! ## Forms -/

/-- What a form declares, with all that is found about it. -/
inductive Declaration.ReadAs (form : Node) : Declaration → List Finding → Prop where
  | classDeclaration (hname : form.nameFor "name" ≠ []) :
      ReadAs form (.classDeclaration (ClassDeclaration.ofForm form))
        (form.optionFindings ++ ClassDeclaration.partFindings form)
  | enumeration (hname : form.nameFor "name" ≠ []) :
      ReadAs form (.enumeration (EnumDeclaration.ofForm form))
        (form.optionFindings ++ EnumDeclaration.partFindings form)

theorem Declaration.readAs_of_read {rep : Reporter} {d : Declaration}
    (h : (read rep form).declaration? = some d) : ReadAs form d (findings form) := by
  unfold findings
  unfold read at h
  split at h
  · rename_i hclass
    rw [if_pos hclass]
    rw [Reading.ofPartial_declaration?, ClassDeclaration.read_eq hclass] at h
    rw [ClassDeclaration.read_eq hclass]
    split at h
    · cases h
    · rename_i hname
      cases h
      rw [if_neg hname]
      exact .classDeclaration hname
  · rename_i hclass
    rw [if_neg hclass]
    split at h
    · rename_i henumeration
      rw [if_pos henumeration]
      rw [Reading.ofPartial_declaration?, EnumDeclaration.read_eq henumeration] at h
      rw [EnumDeclaration.read_eq henumeration]
      split at h
      · cases h
      · rename_i hname
        cases h
        rw [if_neg hname]
        exact .enumeration hname
    · cases h

/-! ## Diagnostics -/

theorem Reading.exists_diagnostics_eq {α : Type} (rep : Reporter) (q : α → Bytes)
    (wrap : α → Declaration) (r : PartialReading α) :
    ∃ opening body rep', r.findings = opening ++ body ∧
      (ofPartial rep q wrap r).diagnostics =
        opening.map (Finding.diagnostic rep) ++ body.map (Finding.diagnostic rep') := by
  unfold ofPartial PartialReading.findings
  cases r.declaration? with
  | none => exact ⟨r.opening, [], rep, by simp, by simp⟩
  | some d => exact ⟨r.opening, r.body, _, rfl, rfl⟩

namespace Declaration

/-- What is found is reported in two parts, before and after the name of the declaration is known.
-/
theorem exists_diagnostics_eq (rep : Reporter) (form : Node) :
    ∃ opening body rep', findings form = opening ++ body ∧
      (read rep form).diagnostics =
        opening.map (Finding.diagnostic rep) ++ body.map (Finding.diagnostic rep') := by
  unfold findings
  by_cases hclass : form.head = utf8 "class"
  · unfold read
    rw [if_pos hclass, if_pos hclass]
    exact Reading.exists_diagnostics_eq _ _ _ _
  by_cases henumeration : form.head = utf8 "enumeration"
  · unfold read
    rw [if_neg hclass, if_pos henumeration, if_neg hclass, if_pos henumeration]
    exact Reading.exists_diagnostics_eq _ _ _ _
  · rw [read_of_unknown rep hclass henumeration, if_neg hclass, if_neg henumeration]
    exact ⟨[_], [], rep, rfl, rfl⟩

/-- Each diagnostic about a form is that for one finding. -/
theorem exists_finding_of_mem_diagnostics {rep : Reporter} {d : Diagnostic}
    (h : d ∈ (read rep form).diagnostics) :
    ∃ f ∈ findings form, ∃ rep', d = Finding.diagnostic rep' f := by
  obtain ⟨opening, body, rep', hfindings, hdiagnostics⟩ := exists_diagnostics_eq rep form
  rw [hdiagnostics] at h
  rw [hfindings]
  rcases List.mem_append.1 h with h | h
  · obtain ⟨f, hf, rfl⟩ := List.mem_map.1 h
    exact ⟨f, List.mem_append_left _ hf, rep, rfl⟩
  · obtain ⟨f, hf, rfl⟩ := List.mem_map.1 h
    exact ⟨f, List.mem_append_right _ hf, rep', rfl⟩

theorem exists_diagnostic_of_mem_findings (rep : Reporter) (h : f ∈ findings form) :
    ∃ d ∈ (read rep form).diagnostics, ∃ rep', d = Finding.diagnostic rep' f := by
  obtain ⟨opening, body, rep', hfindings, hdiagnostics⟩ := exists_diagnostics_eq rep form
  rw [hfindings] at h
  rw [hdiagnostics]
  rcases List.mem_append.1 h with h | h
  · exact ⟨_, List.mem_append_left _ (List.mem_map_of_mem h), rep, rfl⟩
  · exact ⟨_, List.mem_append_right _ (List.mem_map_of_mem h), rep', rfl⟩

theorem diagnostics_eq_nil_iff {rep : Reporter} :
    (read rep form).diagnostics = [] ↔ findings form = [] := by
  obtain ⟨opening, body, rep', hfindings, hdiagnostics⟩ := exists_diagnostics_eq rep form
  rw [hfindings, hdiagnostics]
  simp

end Declaration

end Equate
