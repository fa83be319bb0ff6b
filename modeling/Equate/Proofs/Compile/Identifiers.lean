import Equate.Proofs.Compile.Names
import Equate.Proofs.Declaration.Names
import Equate.Proofs.Emission.Identifiers
/-!
# Names that reach the code

The names in the section of a declaration are those that one form writes: of the text that is
compiled, or of one that was compiled before it in the same session. They are taken as they are. So
it is up to the form whether they are identifiers (`Compiler.spliced_as_written`): a string may hold
a line of its own (`Compiler.spliced_line`).
-/

namespace Equate

/-! ## What forms write -/

namespace Node

/-- Whether the names that a form writes are of one kind, and its namespace of another. -/
structure NamesAre (form : Node) (P Q : Bytes → Prop) : Prop where
  name : P (form.nameFor "name")
  ns : Q (form.nameFor "namespace")
  members : ∀ f ∈ form.formsFor "members", P (f.nameFor "name")
  constants : ∀ f ∈ form.formsFor "constants", P (f.nameFor "name")

/-- Whether the names are identifiers, and the namespace, if there is one, is a path of such. -/
def NamesIdentifiers (form : Node) : Prop :=
  form.NamesAre (fun n => isPlainIdentifier n = true) fun ns => ns ≠ [] → IsPath ns

/-- Whether no name has a byte that could end a comment or a literal. -/
def NamesInert (form : Node) : Prop :=
  form.NamesAre (fun n => ∀ b ∈ n, isInert b = true) fun ns => ∀ b ∈ ns, isInert b = true

/-- Whether no name is written as a string. -/
structure NamesSymbols (form : Node) : Prop where
  name : form.GivesNoString "name"
  ns : form.GivesNoString "namespace"
  members : ∀ f ∈ form.formsFor "members", f.GivesNoString "name"
  constants : ∀ f ∈ form.formsFor "constants", f.GivesNoString "name"

theorem NamesSymbols.namesInert {form : Node} (h : form.NamesSymbols) (hlegible : form.Legible) :
    form.NamesInert where
  name b hb := isInert_of_continuesSymbol (hlegible.continuesSymbol_of_mem_nameFor h.name b hb)
  ns b hb := isInert_of_continuesSymbol (hlegible.continuesSymbol_of_mem_nameFor h.ns b hb)
  members f hf b hb := isInert_of_continuesSymbol
    ((hlegible.of_mem_formsFor hf).continuesSymbol_of_mem_nameFor (h.members f hf) b hb)
  constants f hf b hb := isInert_of_continuesSymbol
    ((hlegible.of_mem_formsFor hf).continuesSymbol_of_mem_nameFor (h.constants f hf) b hb)

end Node

/-! ## What code is made from -/

namespace Output

/-- The names that stand where the code of an output needs an identifier. -/
inductive Splices (out : Output) : Bytes → Prop
  | typeName {t : TypeName} (ht : out.type? = some t) : Splices out t.name
  | component {t : TypeName} {n : Bytes} (ht : out.type? = some t) (hns : t.ns ≠ [])
      (hn : n ∈ Emission.components (Emission.spelledNamespace t.ns)) : Splices out n
  | member {c : Contract} {e : ContractEntry} (hc : out.contract? = some c) (he : e ∈ c.entries) :
      Splices out e.member.name
  | companion {c : Contract} {e : ContractEntry} {n : Bytes} (hc : out.contract? = some c)
      (he : e ∈ c.entries) (hcustom : e.strategy.isCustom = true)
      (hn : n = equalsCompanion e.member.name ∨ n = hashCompanion e.member.name) : Splices out n
  | lookups {t : LookupTable} (ht : out.table? = some t) :
      Splices out (t.typeName ++ utf8 "Enumeration")
  | constant {t : LookupTable} {n : Bytes} (ht : out.table? = some t) (hn : n ∈ t.constants) :
      Splices out n

/-- Whether an output is about the names that a form writes; the member of a wrapper has a name that
no form writes. -/
structure NamedBy (out : Output) (form : Node) : Prop where
  type? : out.type? = some ⟨form.nameFor "namespace", form.nameFor "name"⟩
  members : ∀ c, out.contract? = some c → ∀ e ∈ c.entries,
    e.member.name ∈ (form.formsFor "members").map (Node.nameFor "name") ∨
      c.wrapper = true ∧ e.member.name = utf8 "Value"
  table : ∀ t, out.table? = some t → t.typeName = form.nameFor "name" ∧
    ∀ n ∈ t.constants, n ∈ (form.formsFor "constants").map (Node.nameFor "name")

namespace NamedBy

variable {out : Output} {form : Node}

/-- What goes for the names that a form writes, and for what is made from them, goes for the names
in the code. -/
theorem forall_splices (h : out.NamedBy form) {P Q : Bytes → Prop} (hform : form.NamesAre P Q)
    (hcomponents : ∀ ns, ns ≠ [] → Q ns →
      ∀ n ∈ Emission.components (Emission.spelledNamespace ns), P n)
    (hvalue : P "Value") (hcompanions : ∀ m, P m → P (equalsCompanion m) ∧ P (hashCompanion m))
    (hlookups : ∀ n, P n → P (n ++ utf8 "Enumeration")) :
    ∀ n, out.Splices n → P n := by
  have htype : ∀ t, out.type? = some t →
      t = ⟨form.nameFor "namespace", form.nameFor "name"⟩ := by
    intro t ht
    rw [h.type?] at ht
    exact (Option.some.inj ht).symm
  have hentries : ∀ c, out.contract? = some c → ∀ e ∈ c.entries, P e.member.name := by
    intro c hc e he
    rcases h.members c hc e he with hwritten | ⟨-, heq⟩
    · obtain ⟨f, hf, heq⟩ := List.mem_map.1 hwritten
      rw [← heq]
      exact hform.members f hf
    · rw [heq]
      exact hvalue
  intro n hn
  cases hn with
  | typeName ht =>
    rw [htype _ ht]
    exact hform.name
  | component ht hne hn =>
    rw [htype _ ht] at hne hn
    exact hcomponents _ hne hform.ns n hn
  | member hc he => exact hentries _ hc _ he
  | companion hc he _ hn =>
    obtain ⟨hequals, hhash⟩ := hcompanions _ (hentries _ hc _ he)
    rcases hn with rfl | rfl
    · exact hequals
    · exact hhash
  | lookups ht =>
    rw [(h.table _ ht).1]
    exact hlookups _ hform.name
  | constant ht hn =>
    obtain ⟨f, hf, rfl⟩ := List.mem_map.1 ((h.table _ ht).2 n hn)
    exact hform.constants f hf

theorem isPlainIdentifier_of_splices (h : out.NamedBy form) (hform : form.NamesIdentifiers) :
    ∀ n, out.Splices n → isPlainIdentifier n = true := by
  have hlookups : (utf8 "Enumeration").all isPlainByte = true := by decide
  apply h.forall_splices hform
  · intro ns hne hpath
    exact Emission.isPlainIdentifier_of_mem_components (hpath hne)
  · decide
  · intro m hm
    exact isPlainIdentifier_companions hm
  · intro n hn
    exact isPlainIdentifier_append hn (List.all_eq_true.1 hlookups)

theorem isInert_of_splices (h : out.NamedBy form) (hform : form.NamesInert) :
    ∀ n, out.Splices n → ∀ b ∈ n, isInert b = true := by
  have hvalue : (utf8 "Value").all isInert = true := by decide
  have hlookups : (utf8 "Enumeration").all isInert = true := by decide
  apply h.forall_splices hform
  · intro ns _ hns
    exact Emission.isInert_of_mem_components hns
  · exact List.all_eq_true.1 hvalue
  · intro m hm
    exact isInert_companions hm
  · intro n hn
    exact List.forall_mem_append.2 ⟨hn, List.all_eq_true.1 hlookups⟩

end NamedBy

/-! ## Outputs of forms -/

theorem namedBy_ofContractCheck {fixHints : Bool} {form : Node} {d : ClassDeclaration}
    (hread : (ClassDeclaration.read form).declaration? = some d) {name : Bytes} {reading : Report}
    (hcode : (ofContractCheck name reading (d.check fixHints)).code ≠ []) :
    (ofContractCheck name reading (d.check fixHints)).NamedBy form := by
  obtain ⟨hname, hns, hmembers⟩ := ClassDeclaration.names_of_read hread
  unfold ofContractCheck at hcode ⊢
  dsimp only at hcode ⊢
  split at hcode
  · rename_i c _ hc
    obtain ⟨hcns, hctype⟩ := ClassDeclaration.type_of_check hc
    have hrequested := (ClassDeclaration.contract?_check_eq_some_iff.1 hc).2
    refine ⟨?_, ?_, nofun⟩
    · rw [← hname, ← hns, ← hcns, ← hctype]
      rfl
    · intro c' hc' e he
      cases hc'
      rcases ClassDeclaration.requestedContract?_cases hrequested with
        ⟨wrapped, -, hwrapper, hentries⟩ | ⟨-, -, -, hentries⟩
      · rw [hentries] at he
        rw [List.mem_singleton.1 he]
        exact .inr ⟨hwrapper, rfl⟩
      · rw [hentries, ClassDeclaration.mem_entries_iff] at he
        exact .inl (hmembers _ he.1)
  · exact absurd rfl hcode

theorem namedBy_ofEnumerationCheck {fixHints : Bool} {form : Node} {d : EnumDeclaration}
    (hread : (EnumDeclaration.read form).declaration? = some d) {name : Bytes} {reading : Report}
    (hcode : (ofEnumerationCheck name reading (d.check fixHints)).code ≠ []) :
    (ofEnumerationCheck name reading (d.check fixHints)).NamedBy form := by
  obtain ⟨hname, hns, hconstants⟩ := EnumDeclaration.names_of_read hread
  unfold ofEnumerationCheck at hcode ⊢
  dsimp only at hcode ⊢
  split at hcode
  · rename_i t _ ht
    obtain ⟨-, rfl⟩ := EnumDeclaration.table?_check_eq_some_iff.1 ht
    refine ⟨?_, nofun, ?_⟩
    · rw [← hname, ← hns]
      rfl
    · intro t' ht'
      cases ht'
      refine ⟨hname, fun n hn => ?_⟩
      obtain ⟨c, hc, rfl⟩ := List.mem_map.1 hn
      exact hconstants c hc
  · exact absurd rfl hcode

theorem namedBy_ofForm {fixHints : Bool} {form : Node} (hcode : (ofForm fixHints form).code ≠ []) :
    (ofForm fixHints form).NamedBy form := by
  rw [ofForm_eq_ofReading, ofReading] at hcode ⊢
  cases hd : (Declaration.read { fixHints } form).declaration? with
  | none =>
    rw [hd] at hcode
    exact absurd rfl hcode
  | some d =>
    rw [hd] at hcode
    rcases Declaration.read_cases hd with ⟨c, rfl, hread⟩ | ⟨e, rfl, hread⟩
    · exact namedBy_ofContractCheck hread hcode
    · exact namedBy_ofEnumerationCheck hread hcode

end Output

/-! ## Sessions -/

/-- Whether a form is declared in a text, or in one that is compiled by the actions. -/
def GivenIn (fixHints : Bool) (actions : List CompilerAction) (text : Bytes) (form : Node) : Prop :=
  form ∈ submittedForms fixHints text ∨ ∃ action ∈ actions, form ∈ action.forms fixHints

theorem legible_of_mem_submittedForms {fixHints : Bool} {text : Bytes} {form : Node}
    (h : form ∈ submittedForms fixHints text) : form.Legible := by
  unfold submittedForms at h
  split at h
  · cases h
  · rename_i m hread
    apply (Node.legible_of_read hread).of_mem_children
    unfold moduleDeclarations at h
    split at h
    · exact Node.mem_children_of_mem_arguments h
    · cases h

theorem GivenIn.legible {fixHints : Bool} {actions : List CompilerAction} {text : Bytes}
    {form : Node} (h : GivenIn fixHints actions text form) : form.Legible := by
  rcases h with h | ⟨action, -, h⟩
  · exact legible_of_mem_submittedForms h
  · cases action with
    | compile => exact legible_of_mem_submittedForms h
    | clear => cases h

namespace Compiler

/-- A declaration of a result that has code is the output of a form, whatever the cache and the
schedule. -/
theorem exists_form_of_code_ne_nil {o : Options} {actions : List CompilerAction} {text : Bytes}
    {r : ModuleResult} (h : (run { options := o } actions).2.Yields text (.ok r)) {out : Output}
    (hout : out ∈ r.declarations) (hcode : out.code ≠ []) :
    ∃ form, GivenIn o.fixHints actions text form ∧ out = Output.ofForm o.fixHints form := by
  obtain ⟨hcache, hoptions⟩ := all_run_of_forms (c := { options := o })
    (P := fun out => ∃ form, GivenIn o.fixHints actions text form ∧
      out = Output.ofForm o.fixHints form)
    (fun action (haction : action ∈ actions) form hform =>
      ⟨form, .inr ⟨action, haction, hform⟩, rfl⟩) Cache.all_empty
  generalize (run { options := o } actions).2 = c at h hcache hoptions
  obtain rfl : c.options = o := hoptions
  obtain ⟨m, outputs, houtputs, rfl⟩ :=
    exists_outputs_of_yields_of_forms (fun form hform => ⟨form, .inl hform, rfl⟩) hcache h
  have hnamed : ∀ p ∈ (c.formsOf m).zip outputs, p.2.code ≠ [] → p.2.name ≠ [] := by
    intro p hp hcode
    obtain ⟨form, -, heq⟩ := houtputs p.2 (List.of_mem_zip hp).2
    rw [heq] at hcode ⊢
    obtain ⟨-, -, -, hname⟩ := Output.namedForType_ofForm _ _ hcode
    exact hname
  obtain ⟨hkept, -⟩ := ModuleResult.names_markDuplicates c.options.fixHints {} hnamed
  obtain ⟨p, hp, rfl⟩ := List.mem_map.1 (hkept out hout hcode).1
  exact houtputs p.2 (List.of_mem_zip hp).2

/-- Whatever a session did before, and on any schedule of the workers, the code of a declaration is
made from the names that one form writes. All that it splices are identifiers if these names are.
Nothing that it splices has a byte that could end a comment or a literal if none of these names has,
as it is with symbols. -/
theorem spliced_as_written {o : Options} {actions : List CompilerAction} {text : Bytes}
    {r : ModuleResult} (h : (run { options := o } actions).2.Yields text (.ok r)) {out : Output}
    (hout : out ∈ r.declarations) (hcode : out.code ≠ []) :
    ∃ form, GivenIn o.fixHints actions text form ∧ out.NamedBy form ∧
      (form.NamesIdentifiers → ∀ n, out.Splices n → isPlainIdentifier n = true) ∧
      (form.NamesInert ∨ form.NamesSymbols → ∀ n, out.Splices n → ∀ b ∈ n, isInert b = true) := by
  obtain ⟨form, hform, rfl⟩ := exists_form_of_code_ne_nil h hout hcode
  have hnamed := Output.namedBy_ofForm hcode
  refine ⟨form, hform, hnamed, hnamed.isPlainIdentifier_of_splices, ?_⟩
  rintro (hinert | hsymbols)
  · exact hnamed.isInert_of_splices hinert
  · exact hnamed.isInert_of_splices (hsymbols.namesInert hform.legible)

/-- A class in a namespace, with a member that has companions. -/
def plane : Bytes :=
  utf8 "(module (class :name Point :namespace geo.plane :partial true :base value-object " ++
    utf8 ":attrs [value-object] :members [(property :name _x :type i32 :equality (custom))] " ++
    utf8 ":functions [(fn :name Equals_X) (fn :name GetHashCode_X)]))"

theorem spliced_as_written_plane :
    ∃ r, (compileText { options := {} } plane).1 = .ok r ∧
      r.declarations.map (fun out => out.contract?.map fun c =>
        c.entries.map fun e => equalsCompanion e.member.name) = [some [utf8 "Equals_X"]] ∧
      ∀ out ∈ r.declarations, ∀ n, out.Splices n → isPlainIdentifier n = true := by
  have hresult : (compileText { options := {} } plane).1.toOption.any (fun r => decide
      (r.declarations.map (fun out => out.contract?.map fun c =>
        c.entries.map fun e => equalsCompanion e.member.name) = [some [utf8 "Equals_X"]] ∧
      ∀ out ∈ r.declarations, out.code ≠ [])) = true := by decide +kernel
  have hwritten : ∀ form ∈ submittedForms true plane,
      isPlainIdentifier (form.nameFor "name") = true ∧
        form.nameFor "namespace" = utf8 "geo" ++ ([Ascii.dot] ++ utf8 "plane") ∧
        (∀ f ∈ form.formsFor "members", isPlainIdentifier (f.nameFor "name") = true) ∧
        ∀ f ∈ form.formsFor "constants", isPlainIdentifier (f.nameFor "name") = true := by
    decide +kernel
  have hpath : IsPath (utf8 "geo" ++ ([Ascii.dot] ++ utf8 "plane")) :=
    .dot (by decide) (.identifier (by decide))
  obtain ⟨r, hr, hdeclarations⟩ := exists_of_any_toOption hresult
  obtain ⟨hentries, hcode⟩ := of_decide_eq_true hdeclarations
  have hyields : (run { options := {} } []).2.Yields plane (.ok r) :=
    hr ▸ yields_compileText { options := {} } plane
  refine ⟨r, hr, hentries, fun out hout => ?_⟩
  obtain ⟨form, hform | ⟨action, haction, -⟩, -, hidentifiers, -⟩ :=
    spliced_as_written hyields hout (hcode out hout)
  · obtain ⟨hname, hns, hmembers, hconstants⟩ := hwritten form hform
    exact hidentifiers ⟨hname, fun _ => hns ▸ hpath, hmembers, hconstants⟩
  · cases haction

/-- An enumeration with a constant that goes on with a line of code. -/
def twoLines : Bytes :=
  utf8 "(module (enumeration :name E :partial true " ++
    utf8 ":constants [(constant :name \"A\\nint x;\" :args [1 \"a\"])]))"

/-- Names are not checked: a constant can end the comment that lists it, without any error. -/
theorem spliced_line :
    ∃ r out, (compileText { options := {} } twoLines).1 = .ok r ∧ r.report.success = true ∧
      out ∈ r.declarations ∧ out.Splices (utf8 "A\nint x;") ∧
      isPlainIdentifier (utf8 "A\nint x;") = false ∧
      utf8 "// Constants in declaration order: A\nint x;\n" <:+: out.code := by
  have hresult : (compileText { options := {} } twoLines).1.toOption.any (fun r => decide
      (r.report.success = true ∧ ∃ out ∈ r.declarations,
        out.table?.map LookupTable.constants = some [utf8 "A\nint x;"] ∧
        utf8 "// Constants in declaration order: A\nint x;\n" <:+: out.code)) = true := by
    decide +kernel
  obtain ⟨r, hr, hdeclarations⟩ := exists_of_any_toOption hresult
  obtain ⟨hsuccess, out, hout, hconstants, hline⟩ := of_decide_eq_true hdeclarations
  obtain ⟨t, ht, hconstants⟩ := Option.map_eq_some_iff.1 hconstants
  have hconstant : utf8 "A\nint x;" ∈ t.constants := by
    rw [hconstants]
    exact List.mem_singleton_self _
  exact ⟨r, out, hr, hsuccess, hout, .constant ht hconstant, by decide, hline⟩

end Compiler

end Equate
