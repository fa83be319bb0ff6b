import Equate.Proofs.Declaration.Parts
/-!
# Declarations are well formed

Whatever is reported about a form, the declaration that is read from it is well formed. What was
left out takes no name and no place: names are there and differ, positions count without gaps, and a
report of a repeated name has a note on the member that kept the name.
-/

namespace Equate

/-! ## Repeated names -/

/-- Only a repeated member name is reported as one. -/
theorem Malformation.eq_duplicateMember_of_message {fault : Malformation} {name : Bytes}
    (h : fault.message = (duplicateMember name).message) : fault = duplicateMember name := by
  have hmissing : (utf8 " missing :name").getLast? = some 0x65 := rfl
  have htype : (utf8 "' missing :type").getLast? = some 0x65 := rfl
  have hquote : (utf8 "'").getLast? = some 0x27 := rfl
  cases fault with
  | duplicateMember name' =>
    have hname : name' = name := by simpa [message] using h
    rw [hname]
  -- with a name in front, a message still ends otherwise
  | missingMemberName | missingType =>
    have hlast := congrArg List.getLast? h
    simp only [message, List.getLast?_append, hmissing, htype, hquote, Option.some_or] at hlast
    cases hlast
  | duplicateDeclaration => cases congrArg (·[10]?) h
  | invalidStrategy fault => cases fault <;> cases congrArg List.head? h
  | _ => cases congrArg List.head? h

variable {form : Node} {f : Finding} {name : Bytes}

/-- A repeated member name is found with a note on the member of the class that has the name. -/
theorem ClassDeclaration.notes_of_mem_findings
    (hf : f ∈ form.optionFindings ++ partFindings form) (hfault : f.fault = .duplicateMember name) :
    ∃ m ∈ (ofForm form).members, m.name = name ∧
      f.notes = [⟨"first declared here", m.location⟩] := by
  have hmembers : f ∈ (Member.readAll {} 0 (form.formsFor "members")).1 := by
    simp only [partFindings, List.mem_append] at hf
    rcases hf with hf | ((((hf | hf) | hf) | hf) | hf) | hf
    · exact absurd hfault ((within_of_mem_optionFindings hf).fault name)
    · exact absurd hfault ((within_of_mem_vectorClause hf).fault name)
    · exact absurd hfault ((within_of_mem_readBase hf).fault name)
    · exact absurd hfault ((within_of_mem_vectorClause hf).fault name)
    · exact hf
    · exact absurd hfault ((within_of_mem_vectorClause hf).fault name)
    · obtain ⟨x, -, hf⟩ := List.mem_flatMap.1 hf
      exact absurd hfault ((CompanionFunction.within_of_mem_read hf).fault name)
  rcases (Member.allReadAs_readAll {} 0 _).finding_cases hmembers with
    ⟨x, -, hwithin⟩ | ⟨x, -, m, -, first, rfl, hseen | ⟨m', hm', hname, rfl⟩⟩
  · exact absurd hfault (hwithin.fault name)
  · simp at hseen
  · cases hfault
    exact ⟨m', hm', hname, rfl⟩

/-! ## Classes -/

/-- Whether a member is the first one of its name: it is read from one of the forms, and no form in
front of that is read as a member of the name. -/
def Member.IsFirstIn (forms : List Node) (m : Member) : Prop :=
  ∃ front form behind, forms = front ++ form :: behind ∧ m.ReadFrom form ∧
    ∀ x ∈ front, ∀ p n, (read p x).2 = some n → n.name ≠ m.name

/-- Whether a class is well formed, and well told of by the diagnostics about its form. -/
structure ClassDeclaration.IsWellFormed (ds : List Diagnostic) (form : Node)
    (c : ClassDeclaration) : Prop where
  /-- Each member has a name and its type from a form of its own, in the order of the forms. -/
  members : ∃ kept, kept.Sublist (form.formsFor "members") ∧
    List.Forall₂ Member.ReadFrom kept c.members
  distinct : (c.members.map Member.name).Nodup
  positions : c.members.map Member.position = List.range c.members.length
  first : ∀ m ∈ c.members, m.IsFirstIn (form.formsFor "members")
  /-- A report of a repeated name points at the member that has the name. -/
  notes : ∀ d ∈ ds, ∀ name, d.message = (Malformation.duplicateMember name).message →
    ∃ m ∈ c.members, m.name = name ∧ d.notes = [⟨"first declared here", m.location⟩]
  /-- Each function has a name, from a form of its own. -/
  functions : ∃ kept, kept.Sublist (form.formsFor "functions") ∧
    List.Forall₂ CompanionFunction.ReadFrom kept c.functions

/-- Whether an enumeration is well formed: constants have names, and have both a value and a name of
the value or none of them. -/
structure EnumDeclaration.IsWellFormed (form : Node) (e : EnumDeclaration) : Prop where
  constants : ∃ kept, kept.Sublist (form.formsFor "constants") ∧
    List.Forall₂ ConstantDeclaration.ReadFrom kept e.constants
  positions : e.constants.map ConstantDeclaration.position = List.range e.constants.length

def Declaration.IsWellFormed (ds : List Diagnostic) (form : Node) : Declaration → Prop
  | .classDeclaration d => d.IsWellFormed ds form
  | .enumeration d => d.IsWellFormed form

theorem ClassDeclaration.isWellFormed_ofForm {ds : List Diagnostic}
    (hds : ∀ d ∈ ds, ∃ f ∈ form.optionFindings ++ partFindings form,
      ∃ rep, d = Finding.diagnostic rep f) :
    (ofForm form).IsWellFormed ds form where
  members := (Member.allReadAs_readAll {} 0 _).exists_sublist
  distinct := (Member.nodup_name_readAll {} 0 _).1
  positions := by
    rw [List.range_eq_range']
    exact Member.map_position_readAll {} 0 _
  first m hm := ((Member.allReadAs_readAll {} 0 _).exists_front hm).2
  notes d hd name hmessage := by
    obtain ⟨f, hf, rep, rfl⟩ := hds d hd
    exact notes_of_mem_findings hf (Malformation.eq_duplicateMember_of_message hmessage)
  functions := CompanionFunction.exists_sublist _

theorem EnumDeclaration.isWellFormed_ofForm (form : Node) : (ofForm form).IsWellFormed form where
  constants := ConstantDeclaration.exists_sublist 0 _
  positions := by
    rw [List.range_eq_range']
    exact ConstantDeclaration.map_position_readAll 0 _

/-- Whatever is reported about a form, the declaration that is read from it is well formed. -/
theorem Declaration.isWellFormed_of_read {rep : Reporter} {d : Declaration}
    (h : (read rep form).declaration? = some d) :
    d.IsWellFormed (read rep form).diagnostics form := by
  have hread := readAs_of_read h
  have hds : ∀ d ∈ (read rep form).diagnostics, ∃ f ∈ findings form,
      ∃ rep', d = Finding.diagnostic rep' f := fun d hd => exists_finding_of_mem_diagnostics hd
  generalize findings form = findings at hread hds
  cases hread with
  | classDeclaration => exact ClassDeclaration.isWellFormed_ofForm hds
  | enumeration => exact EnumDeclaration.isWellFormed_ofForm form

/-- A class with a field without a type, a field that repeats a name, and a number for a member. -/
def patchy : Bytes :=
  utf8 "(class :name A :members [(field :name x) (field :name a :type i32) " ++
    utf8 "(field :name a :type str) 7 (field :name b :type i32)])"

theorem Declaration.isWellFormed_patchy :
    ∃ form c, Node.read patchy = .ok form ∧
      (read {} form).declaration? = some (.classDeclaration c) ∧
      c.members.map (fun m => (m.name, m.position)) = [(utf8 "a", 0), (utf8 "b", 1)] ∧
      (read {} form).diagnostics.map (fun d => d.notes.map Note.location) =
        [[], [⟨1, 42⟩], []] ∧
      c.IsWellFormed (read {} form).diagnostics form := by
  have hkinds : (Node.read patchy).toOption.map (fun form => (form.head,
      (ClassDeclaration.read form).declaration?.map fun c =>
        c.members.map fun m => (m.name, m.position))) =
      some (utf8 "class", some [(utf8 "a", 0), (utf8 "b", 1)]) := by decide +kernel
  have hnotes : (Node.read patchy).toOption.map (fun form =>
      (read {} form).diagnostics.map fun d => d.notes.map Note.location) =
      some [[], [⟨1, 42⟩], []] := by decide +kernel
  cases hread : Node.read patchy with
  | error e =>
    rw [hread] at hkinds
    cases hkinds
  | ok form =>
    rw [hread] at hkinds hnotes
    obtain ⟨hhead, hmembers⟩ := Prod.mk.inj (Option.some.inj hkinds)
    obtain ⟨c, hc, hmembers⟩ := Option.map_eq_some_iff.1 hmembers
    have hdeclared : (read {} form).declaration? = some (.classDeclaration c) := by
      unfold read
      rw [if_pos hhead, Reading.ofPartial_declaration?, hc]
      rfl
    exact ⟨form, c, rfl, hdeclared, hmembers, Option.some.inj hnotes,
      isWellFormed_of_read hdeclared⟩

end Equate
