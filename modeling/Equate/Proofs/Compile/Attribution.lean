import Equate.Proofs.Compile.Duplicates
import Equate.Proofs.Compile.Origin
import Equate.Proofs.Declaration.Parts
/-!
# Whose diagnostics they are

A diagnostic tells which declaration it is about. A reader knows the name of a declaration only when
it has been through the options of the form, so what is wrong with these options themselves is
reported without a name. Everything else about a declaration is reported under its name: by the
reader, by the checks, and when duplicates are marked (`Output.IsAttributed`). So a declaration of a
result has all its diagnostics under its name exactly if nothing was found in the options of the form
itself (`Compiler.attribution_of_reaches`).
-/

namespace Equate

/-! ## Readings and checks -/

namespace Declaration

/-- The name under which a form is declared. -/
def nameOf (form : Node) : Bytes :=
  qualifiedName (form.nameFor "namespace") (form.nameFor "name")

/-- A form that is read under a name: what is found in its options comes first, without a name. -/
structure ReadUnderName (fixHints : Bool) (form : Node) (c : Reading) : Prop where
  head : form.head = utf8 "class" ∨ form.head = utf8 "enumeration"
  written : form.nameFor "name" ≠ []
  name : c.name = nameOf form
  diagnostics : ∃ body : List Finding, c.diagnostics =
    form.optionFindings.map (Finding.diagnostic { fixHints }) ++
      body.map (Finding.diagnostic ⟨nameOf form, fixHints⟩)
  declaration : ∃ d, c.declaration? = some d ∧
    ((∃ x, d = .classDeclaration x ∧ x.qualifiedName = nameOf form) ∨
      ∃ x, d = .enumeration x ∧ x.qualifiedName = nameOf form)

theorem readUnderName {fixHints : Bool} {form : Node}
    (h : (read { fixHints } form).name ≠ []) :
    ReadUnderName fixHints form (read { fixHints } form) := by
  by_cases hclass : form.head = utf8 "class"
  · unfold read at h ⊢
    rw [if_pos hclass, ClassDeclaration.read_eq hclass] at h ⊢
    split at h
    -- a form that writes no name is read under that of the reporter, which is empty
    · exact absurd rfl h
    · rename_i hname
      rw [if_neg hname]
      exact ⟨.inl hclass, hname, rfl, ⟨_, rfl⟩, ⟨_, rfl, .inl ⟨_, rfl, rfl⟩⟩⟩
  by_cases henumeration : form.head = utf8 "enumeration"
  · unfold read at h ⊢
    rw [if_neg hclass, if_pos henumeration, EnumDeclaration.read_eq henumeration] at h ⊢
    split at h
    · exact absurd rfl h
    · rename_i hname
      rw [if_neg hname]
      exact ⟨.inr henumeration, hname, rfl, ⟨_, rfl⟩, ⟨_, rfl, .inr ⟨_, rfl, rfl⟩⟩⟩
  · rw [read_of_unknown _ hclass henumeration] at h
    exact absurd rfl h

/-- A check reports under the name of what it checks. -/
theorem ReadUnderName.check {fixHints : Bool} {form : Node} {c : Reading}
    (h : ReadUnderName fixHints form c) :
    (∀ x ∈ (checkReport fixHints c.declaration?).errors, x.declaration = nameOf form) ∧
      ∀ x ∈ (checkReport fixHints c.declaration?).warnings, x.declaration = nameOf form := by
  obtain ⟨d, hd, hnamed⟩ := h.declaration
  rw [hd]
  rcases hnamed with ⟨x, rfl, hx⟩ | ⟨x, rfl, hx⟩
  · rw [checkReport, ClassDeclaration.check_eq]
    exact Report.forall_ofList (List.forall_mem_map.2 fun _ _ => hx)
  · rw [checkReport, EnumDeclaration.check_eq]
    exact Report.forall_ofList (List.forall_mem_map.2 fun _ _ => hx)

end Declaration

/-! ## Outputs -/

namespace Output

variable {fixHints : Bool} {form : Node} {out : Output}

/-- Whether an output is that of a form with a name, and all its diagnostics but those about the
options of the form itself are under the name. -/
structure IsAttributed (fixHints : Bool) (form : Node) (out : Output) : Prop where
  head : form.head = utf8 "class" ∨ form.head = utf8 "enumeration"
  written : form.nameFor "name" ≠ []
  name : out.name = qualifiedName (form.nameFor "namespace") (form.nameFor "name")
  errors : ∃ rest,
    out.report.errors = form.optionFindings.map (Finding.diagnostic { fixHints }) ++ rest ∧
      ∀ x ∈ rest, x.declaration = out.name
  warnings : ∀ x ∈ out.report.warnings, x.declaration = out.name

theorem isAttributed_ofForm (h : (ofForm fixHints form).name ≠ []) :
    (ofForm fixHints form).IsAttributed fixHints form := by
  have hname : (ofForm fixHints form).name = (Declaration.read { fixHints } form).name :=
    name_ofReading fixHints _
  have hread := Declaration.readUnderName (hname ▸ h)
  obtain ⟨herrors, hwarnings⟩ := hread.check
  obtain ⟨body, hbody⟩ := hread.diagnostics
  rw [hread.name] at hname
  refine ⟨hread.head, hread.written, hname, ?_, ?_⟩
  · rw [errors_ofForm, hbody, List.append_assoc, hname]
    refine ⟨_, rfl, List.forall_mem_append.2 ⟨fun x hx => ?_, herrors⟩⟩
    obtain ⟨f, -, rfl⟩ := List.mem_map.1 hx
    rfl
  · rw [warnings_ofForm, hname]
    exact hwarnings

theorem IsAttributed.duplicate (h : out.IsAttributed fixHints form) (location first : Location) :
    (out.duplicate fixHints location first).IsAttributed fixHints form := by
  have hrepeat := isRepeatOf_duplicate fixHints out location first
  obtain ⟨rest, herrors, hrest⟩ := h.errors
  refine ⟨h.head, h.written, h.name, ⟨rest ++ [.repeatedName out.name location first], ?_, ?_⟩, ?_⟩
  · rw [hrepeat.errors, herrors, List.append_assoc]
  · exact List.forall_mem_append.2 ⟨hrest, List.forall_mem_singleton.2 rfl⟩
  · rw [hrepeat.warnings]
    exact h.warnings

/-- All diagnostics are under the name exactly if nothing was found in the options. -/
theorem IsAttributed.forall_declaration_iff (h : out.IsAttributed fixHints form)
    (hname : out.name ≠ []) :
    (∀ x ∈ out.report.errors ++ out.report.warnings, x.declaration = out.name) ↔
      form.optionFindings = [] := by
  obtain ⟨rest, herrors, hrest⟩ := h.errors
  constructor
  · intro hall
    refine List.eq_nil_iff_forall_not_mem.2 fun f hf => hname ?_
    have hmem : f.diagnostic { fixHints } ∈ out.report.errors ++ out.report.warnings := by
      rw [herrors]
      exact List.mem_append_left _ (List.mem_append_left _ (List.mem_map_of_mem hf))
    exact (hall _ hmem).symm
  · intro hnone
    rw [herrors, hnone]
    exact List.forall_mem_append.2 ⟨hrest, h.warnings⟩

end Output

namespace Compiler

variable {o : Options} {actions : List CompilerAction} {c : Compiler} {m : Node} {r : ModuleResult}

/-- Whatever a compiler compiled before and under any schedule, a declaration with a name comes from
a form that declares this name. Its diagnostics carry the name, except for what was found in the
options of that form, which comes first among the errors and carries none. -/
theorem attribution_of_reaches (h : Reaches ⟨o, .empty⟩ actions c) (hr : c.Returns m r)
    {out : Output} (hout : out ∈ r.declarations) (hname : out.name ≠ []) :
    ∃ form, (form ∈ c.formsOf m ∨ ∃ action ∈ actions, form ∈ action.forms o.fixHints) ∧
      out.IsAttributed o.fixHints form ∧
      (∀ f ∈ form.optionFindings, (f.diagnostic { fixHints := o.fixHints }).declaration = []) ∧
      ((∀ x ∈ out.report.errors ++ out.report.warnings, x.declaration = out.name) ↔
        form.optionFindings = []) := by
  obtain rfl : c.options = o := h.options
  -- with a cache an output may be that of an earlier form that has the same key
  let P (own : Output) : Prop := ∃ form,
    (form ∈ c.formsOf m ∨ ∃ action ∈ actions, form ∈ action.forms c.options.fixHints) ∧
      own = Output.ofForm c.options.fixHints form
  have hcache : c.cache.All P := by
    refine all_of_reaches (fun action haction form hform => ?_) Cache.all_empty h
    exact ⟨form, .inr ⟨action, haction, hform⟩, rfl⟩
  obtain ⟨outputs, houtputs, rfl⟩ :=
    exists_outputs_of_returns (P := P) (fun form hform => ⟨form, .inl hform, rfl⟩) hcache hr
  obtain ⟨own, hown, hcases⟩ := ModuleResult.exists_of_mem_declarations hout
  obtain ⟨form, hgiven, rfl⟩ := houtputs own hown
  have hattributed : out.IsAttributed c.options.fixHints form := by
    rcases hcases with rfl | ⟨location, first, rfl⟩
    · exact Output.isAttributed_ofForm hname
    · exact (Output.isAttributed_ofForm hname).duplicate location first
  exact ⟨form, hgiven, hattributed, fun _ _ => rfl, hattributed.forall_declaration_iff hname⟩

/-- A class with something wrong in its options and in its parts, and an enumeration with something
wrong in its parts only. -/
def unnamedOption : Bytes :=
  utf8 "(module (class :name A :namespace n :partial 1 :attrs 2) " ++
    utf8 "(enumeration :name E :partial true :constants 3))"

theorem attribution_unnamedOption :
    ∃ m r, Node.read unnamedOption = .ok m ∧ Returns ⟨{}, .empty⟩ m r ∧
      r.declarations.map (fun out => (out.name, out.report.errors.map Diagnostic.declaration)) =
        [(utf8 "n::A", [[], utf8 "n::A"]), (utf8 "E", [utf8 "E"])] ∧
      ∀ out ∈ r.declarations, ∃ form ∈ formsOf ⟨{}, .empty⟩ m, out.IsAttributed true form := by
  have hnames : (Node.read unnamedOption).toOption.map (fun m =>
      (compile ⟨{}, .empty⟩ m).1.declarations.map fun out =>
        (out.name, out.report.errors.map Diagnostic.declaration)) =
      some [(utf8 "n::A", [[], utf8 "n::A"]), (utf8 "E", [utf8 "E"])] := by decide +kernel
  obtain ⟨m, hread, hnames⟩ := exists_of_map_toOption hnames
  have hreturns := returns_compile ⟨{}, .empty⟩ m
  refine ⟨m, _, hread, hreturns, hnames, fun out hout => ?_⟩
  have hne : out.name ≠ [] := by
    have hall : ∀ p ∈ [(utf8 "n::A", [[], utf8 "n::A"]), (utf8 "E", [utf8 "E"])], p.1 ≠ [] := by
      decide
    refine hall (out.name, out.report.errors.map Diagnostic.declaration) ?_
    rw [← hnames]
    exact List.mem_map_of_mem hout
  obtain ⟨form, hform, hattributed, -⟩ := attribution_of_reaches .nil hreturns hout hne
  refine ⟨form, hform.resolve_right ?_, hattributed⟩
  rintro ⟨action, haction, -⟩
  cases haction

/-- The class is named `A`, but the error about its option does not say so. -/
theorem declaration_ne_name :
    ∃ m r out x, Node.read (utf8 "(module (class :name A :partial 1))") = .ok m ∧
      Returns ⟨{}, .empty⟩ m r ∧ out ∈ r.declarations ∧ out.name = utf8 "A" ∧
      x ∈ out.report.errors ∧ x.declaration = [] := by
  have hnames : (Node.read (utf8 "(module (class :name A :partial 1))")).toOption.map (fun m =>
      (compile ⟨{}, .empty⟩ m).1.declarations.map fun out =>
        (out.name, out.report.errors.map Diagnostic.declaration)) =
      some [(utf8 "A", [[]])] := by decide
  obtain ⟨m, hread, hnames⟩ := exists_of_map_toOption hnames
  obtain ⟨out, hout, heq⟩ := List.map_eq_singleton_iff.1 hnames
  obtain ⟨hname, hdeclarations⟩ := Prod.mk.inj heq
  obtain ⟨x, hx, hdeclaration⟩ := List.map_eq_singleton_iff.1 hdeclarations
  refine ⟨m, _, out, x, hread, returns_compile _ m, ?_, hname, ?_, hdeclaration⟩
  · rw [hout]
    exact List.mem_cons_self
  · rw [hx]
    exact List.mem_cons_self

end Compiler

end Equate
