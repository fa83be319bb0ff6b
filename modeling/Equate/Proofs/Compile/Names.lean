import Equate.Proofs.Compile.Origin
import Equate.Proofs.Compile.Synthesis
import Equate.Proofs.Emission.Spelling
/-!
# The types of sections

A section is generated for one type. Of two declarations whose names are written alike only the
first has a section, whatever the cache and the schedule (`Compiler.types_of_sections`). But code
spells a namespace with `::` where it may be written with a dot, and the names are compared as they
are written: a module that uses both can have two sections for one type
(`Compiler.sections_coincide`). Where no name has a colon, or no namespace a dot, written and
spelled names are the same notion.
-/

namespace Equate

/-- The name of a type, in its parts. -/
structure TypeName where
  ns : Bytes
  name : Bytes
  deriving DecidableEq, Repr

namespace TypeName

/-- The name as a module writes it. -/
def written (t : TypeName) : Bytes := qualifiedName t.ns t.name

/-- The name as code spells it. -/
def spelled (t : TypeName) : Bytes := Emission.spelledName t.ns t.name

end TypeName

/-! ## Spelling -/

namespace TypeName

variable {s t : TypeName}

theorem spelled_of_no_dot (h : Ascii.dot ∉ t.ns) : t.spelled = t.written := by
  unfold spelled written Emission.spelledName qualifiedName
  rw [Emission.spelledNamespace_of_no_dot h]

theorem eq_of_spelled_eq (hs : Ascii.colon ∉ s.ns ++ s.name) (ht : Ascii.colon ∉ t.ns ++ t.name)
    (h : s.spelled = t.spelled) : s = t := by
  obtain ⟨ns, name⟩ := s
  obtain ⟨ns', name'⟩ := t
  rw [List.mem_append, not_or] at hs ht
  dsimp only at hs ht
  have hcolon : Ascii.colon ∈ utf8 "::" := by decide
  unfold spelled Emission.spelledName at h
  cases ns with
  | nil =>
    cases ns' with
    | nil => rw [show name = name' from h]
    | cons b ns' =>
      have hname : name = Emission.spelledNamespace (b :: ns') ++ utf8 "::" ++ name' := h
      simp [hname, hcolon] at hs
  | cons b ns =>
    cases ns' with
    | nil =>
      have hname : Emission.spelledNamespace (b :: ns) ++ utf8 "::" ++ name = name' := h
      simp [← hname, hcolon] at ht
    | cons b' ns' =>
      have hparts : Emission.spelledNamespace (b :: ns) ++ (utf8 "::" ++ name) =
          Emission.spelledNamespace (b' :: ns') ++ (utf8 "::" ++ name') := by
        rw [← List.append_assoc, ← List.append_assoc]
        exact h
      obtain ⟨hns, hname⟩ :=
        Emission.eq_of_spelledNamespace_append hs.1 ht.1 hs.2 ht.2 hparts
      rw [hns, hname]

/-- Names that differ as they are written are spelled alike only where dots and colons are mixed. -/
theorem mixed_of_spelled_eq (hwritten : s.written ≠ t.written) (h : s.spelled = t.spelled) :
    (Ascii.dot ∈ s.ns ∨ Ascii.dot ∈ t.ns) ∧
      (Ascii.colon ∈ s.ns ++ s.name ∨ Ascii.colon ∈ t.ns ++ t.name) := by
  constructor
  · by_contra hdots
    rw [not_or] at hdots
    rw [spelled_of_no_dot hdots.1, spelled_of_no_dot hdots.2] at h
    exact hwritten h
  · by_contra hcolons
    rw [not_or] at hcolons
    exact hwritten (congrArg written (eq_of_spelled_eq hcolons.1 hcolons.2 h))

end TypeName

/-! ## Names of readings -/

/-- The type of a declaration. -/
def Declaration.typeName : Declaration → TypeName
  | .classDeclaration d => ⟨d.ns, d.name⟩
  | .enumeration d => ⟨d.ns, d.name⟩

theorem ClassDeclaration.name_ne_nil {form : Node} {d : ClassDeclaration}
    (h : (read form).declaration? = some d) : d.name ≠ [] := by
  unfold read at h
  rcases readClauses "class" form.arguments with ⟨clauses, stop⟩
  dsimp only at h
  split at h
  · cases h
  · rename_i hname
    cases h
    exact fun h => hname (List.isEmpty_iff.2 h)

theorem EnumDeclaration.name_ne_nil {form : Node} {d : EnumDeclaration}
    (h : (read form).declaration? = some d) : d.name ≠ [] := by
  unfold read at h
  rcases readClauses "enumeration" form.arguments with ⟨clauses, stop⟩
  dsimp only at h
  split at h
  · cases h
  · rename_i hname
    cases h
    exact fun h => hname (List.isEmpty_iff.2 h)

theorem Reading.ofPartial_eq_some {α : Type} {rep : Reporter} {q : α → Bytes}
    {wrap : α → Declaration} {r : PartialReading α} {d : Declaration}
    (h : (ofPartial rep q wrap r).declaration? = some d) :
    ∃ x, r.declaration? = some x ∧ d = wrap x ∧ (ofPartial rep q wrap r).name = q x := by
  rw [ofPartial_declaration?, Option.map_eq_some_iff] at h
  obtain ⟨x, hx, rfl⟩ := h
  refine ⟨x, hx, rfl, ?_⟩
  rw [ofPartial, hx]

/-- A form that declares something is named for the type of it. -/
theorem Declaration.name_read {rep : Reporter} {form : Node} {d : Declaration}
    (h : (read rep form).declaration? = some d) :
    (read rep form).name = d.typeName.written ∧ d.typeName.name ≠ [] := by
  unfold read at h ⊢
  by_cases hclass : form.head = utf8 "class"
  · rw [if_pos hclass] at h ⊢
    obtain ⟨x, hx, rfl, hname⟩ := Reading.ofPartial_eq_some h
    exact ⟨hname, ClassDeclaration.name_ne_nil hx⟩
  by_cases henumeration : form.head = utf8 "enumeration"
  · rw [if_neg hclass, if_pos henumeration] at h ⊢
    obtain ⟨x, hx, rfl, hname⟩ := Reading.ofPartial_eq_some h
    exact ⟨hname, EnumDeclaration.name_ne_nil hx⟩
  · rw [if_neg hclass, if_neg henumeration] at h
    cases h

theorem TypeName.written_ne_nil {t : TypeName} (h : t.name ≠ []) : t.written ≠ [] := by
  unfold written qualifiedName
  split <;> simp [h]

/-! ## Names of outputs -/

namespace Output

/-- The type that the section of an output is for. -/
def type? (out : Output) : Option TypeName :=
  (out.contract?.map fun c => ⟨c.ns, c.typeName⟩) <|> out.table?.map fun t => ⟨t.ns, t.typeName⟩

/-- Whether the section of an output, if there is one, is for the type that the output is named
for. -/
def NamedForType (out : Output) : Prop :=
  out.code ≠ [] → ∃ t, out.type? = some t ∧ out.name = t.written ∧ out.name ≠ []

theorem namedForType_of_code_eq_nil {out : Output} (h : out.code = []) : out.NamedForType :=
  fun hcode => absurd h hcode

end Output

theorem ClassDeclaration.type_of_check {fixHints : Bool} {d : ClassDeclaration} {c : Contract}
    (h : (d.check fixHints).contract? = some c) : c.ns = d.ns ∧ c.typeName = d.name := by
  have hrequested := (contract?_check_eq_some_iff.1 h).2
  unfold requestedContract? at hrequested
  split at hrequested
  · cases hrequested
    exact ⟨rfl, rfl⟩
  · cases hrequested
    exact ⟨rfl, rfl⟩
  · cases hrequested

namespace Output

theorem namedForType_ofForm (fixHints : Bool) (form : Node) :
    (ofForm fixHints form).NamedForType := by
  cases hd : (Declaration.read { fixHints } form).declaration? with
  | none =>
    apply namedForType_of_code_eq_nil
    rw [ofForm_eq_ofReading, ofReading, hd]
  | some d =>
    obtain ⟨hname, hne⟩ := Declaration.name_read hd
    have hname_ne : (Declaration.read { fixHints } form).name ≠ [] :=
      hname ▸ TypeName.written_ne_nil hne
    rw [ofForm_eq_ofReading, ofReading, hd]
    cases d with
    | classDeclaration d =>
      unfold ofContractCheck
      dsimp only
      split
      · rename_i c _ hc
        obtain ⟨hns, htype⟩ := ClassDeclaration.type_of_check hc
        intro _
        refine ⟨⟨c.ns, c.typeName⟩, rfl, ?_, hname_ne⟩
        rw [hns, htype]
        exact hname
      · exact namedForType_of_code_eq_nil rfl
    | enumeration d =>
      unfold ofEnumerationCheck
      dsimp only
      split
      · rename_i t _ ht
        obtain ⟨-, rfl⟩ := EnumDeclaration.table?_check_eq_some_iff.1 ht
        intro _
        exact ⟨_, rfl, hname, hname_ne⟩
      · exact namedForType_of_code_eq_nil rfl

end Output

/-! ## Modules -/

/-- Outputs that keep their code were given, and have names that were not seen and that differ. -/
theorem ModuleResult.names_markDuplicates (fixHints : Bool) (seen : Std.TreeMap Bytes Location)
    {pairs : List (Node × Output)} (hnames : ∀ p ∈ pairs, p.2.code ≠ [] → p.2.name ≠ []) :
    (∀ out ∈ markDuplicates fixHints seen pairs, out.code ≠ [] →
      out ∈ pairs.map Prod.snd ∧ ¬ seen[out.name]?.isSome) ∧
    (markDuplicates fixHints seen pairs).Pairwise fun a b =>
      a.code ≠ [] → b.code ≠ [] → a.name ≠ b.name := by
  induction pairs generalizing seen with
  | nil => exact ⟨nofun, .nil⟩
  | cons pair rest ih =>
    obtain ⟨form, out⟩ := pair
    obtain ⟨seen', hseen', hhead⟩ := markDuplicates_cons fixHints seen form out rest
    obtain ⟨hmem, hpairwise⟩ := ih seen' fun p hp => hnames p (List.mem_cons_of_mem _ hp)
    have hname : out.code ≠ [] → out.name ≠ [] := hnames (form, out) List.mem_cons_self
    -- what is kept behind the first output has a name that neither was seen nor is the first's
    have hrest : ∀ b ∈ markDuplicates fixHints seen' rest, b.code ≠ [] →
        b ∈ ((form, out) :: rest).map Prod.snd ∧ ¬ seen[b.name]?.isSome ∧ out.name ≠ b.name := by
      intro b hb hcode
      obtain ⟨hgiven, hunseen⟩ := hmem b hb hcode
      have hne : b.name ≠ [] := by
        obtain ⟨p, hp, rfl⟩ := List.mem_map.1 hgiven
        exact hnames p (List.mem_cons_of_mem _ hp) hcode
      rw [hseen' _ hne, not_or] at hunseen
      exact ⟨List.mem_cons_of_mem _ hgiven, hunseen⟩
    rcases hhead with ⟨-, -, first, heq⟩ | ⟨hkept, heq⟩
    · rw [heq]
      constructor
      · intro b hb hcode
        rcases List.mem_cons.1 hb with rfl | hb
        · exact absurd rfl hcode
        · exact ⟨(hrest b hb hcode).1, (hrest b hb hcode).2.1⟩
      · exact .cons (fun b _ hcode => absurd rfl hcode) hpairwise
    · rw [heq]
      constructor
      · intro b hb hcode
        rcases List.mem_cons.1 hb with rfl | hb
        · exact ⟨List.mem_cons_self, fun h => hkept ⟨hname hcode, h⟩⟩
        · exact ⟨(hrest b hb hcode).1, (hrest b hb hcode).2.1⟩
      · exact .cons (fun b hb _ hcode => (hrest b hb hcode).2.2) hpairwise

namespace Compiler

/-- Whatever a session did before, and on any schedule of the workers, two sections of one result
are for types with names that are written differently. They are also spelled differently, unless a
dot in one of the namespaces meets a colon. -/
theorem types_of_sections (o : Options) (actions : List CompilerAction) {text : Bytes}
    {r : ModuleResult}
    (h : (run { options := o } actions).2.Yields text (.ok r)) :
    r.declarations.Pairwise fun a b => a.code ≠ [] → b.code ≠ [] →
      ∃ s t, a.type? = some s ∧ b.type? = some t ∧ s.written ≠ t.written ∧
        (s.spelled = t.spelled →
          (Ascii.dot ∈ s.ns ∨ Ascii.dot ∈ t.ns) ∧
            (Ascii.colon ∈ s.ns ++ s.name ∨ Ascii.colon ∈ t.ns ++ t.name)) := by
  obtain ⟨hcache, -⟩ := all_run (c := { options := o })
    (Output.namedForType_ofForm o.fixHints) Cache.all_empty actions
  obtain ⟨m, outputs, houtputs, rfl⟩ :=
    exists_outputs_of_yields (Output.namedForType_ofForm _) hcache h
  generalize (run { options := o } actions).2 = c at *
  have hgiven : ∀ p ∈ (c.formsOf m).zip outputs, p.2.NamedForType :=
    fun p hp => houtputs p.2 (List.of_mem_zip hp).2
  obtain ⟨hkept, hdiffer⟩ := ModuleResult.names_markDuplicates c.options.fixHints {}
    fun p hp hcode => by
      obtain ⟨-, -, -, hname⟩ := hgiven p hp hcode
      exact hname
  have hnamed : ∀ out ∈ ModuleResult.markDuplicates c.options.fixHints {}
      ((c.formsOf m).zip outputs), out.NamedForType := by
    intro out hout hcode
    obtain ⟨p, hp, rfl⟩ := List.mem_map.1 (hkept out hout hcode).1
    exact hgiven p hp hcode
  refine hdiffer.imp_of_mem ?_
  intro a b ha hb hab hcodeA hcodeB
  obtain ⟨s, hs, hnameA, -⟩ := hnamed a ha hcodeA
  obtain ⟨t, ht, hnameB, -⟩ := hnamed b hb hcodeB
  have hwritten : s.written ≠ t.written := by
    rw [← hnameA, ← hnameB]
    exact hab hcodeA hcodeB
  exact ⟨s, t, hs, ht, hwritten, TypeName.mixed_of_spelled_eq hwritten⟩

/-- Two classes and an enumeration, with dots in the namespaces. -/
def dotted : Bytes :=
  utf8 "(module (class :name X :namespace a.b :base (wrapper i32)) " ++
    utf8 "(class :name X :namespace a.c :base (wrapper i32)) " ++
    utf8 "(enumeration :name E :namespace a.b :partial true))"

theorem types_of_sections_dotted :
    ∃ r, (compileText { options := {} } dotted).1 = .ok r ∧
      r.declarations.map (fun out => (out.code.isEmpty, out.type?.map TypeName.spelled)) =
        [(false, some (utf8 "a::b::X")), (false, some (utf8 "a::c::X")),
          (false, some (utf8 "a::b::E"))] ∧
      r.declarations.Pairwise fun a b => a.code ≠ [] → b.code ≠ [] →
        ∃ s t, a.type? = some s ∧ b.type? = some t ∧ s.written ≠ t.written := by
  have hspelled : ((compileText { options := {} } dotted).1.toOption.map fun r =>
      r.declarations.map fun out => (out.code.isEmpty, out.type?.map TypeName.spelled)) =
        some [(false, some (utf8 "a::b::X")), (false, some (utf8 "a::c::X")),
          (false, some (utf8 "a::b::E"))] := by decide +kernel
  have hyields := yields_compileText { options := {} } dotted
  cases hresult : (compileText { options := {} } dotted).1 with
  | error e =>
    rw [hresult] at hspelled
    cases hspelled
  | ok r =>
    rw [hresult] at hspelled hyields
    refine ⟨r, rfl, Option.some.inj hspelled, ?_⟩
    apply (types_of_sections {} [] hyields).imp
    intro a b hab hcodeA hcodeB
    obtain ⟨s, t, hs, ht, hwritten, -⟩ := hab hcodeA hcodeB
    exact ⟨s, t, hs, ht, hwritten⟩

/-- One type, with the two spellings of its namespace. -/
def mixed : Bytes :=
  utf8 "(module (class :name X :namespace \"a.b\" :base (wrapper i32)) " ++
    utf8 "(class :name X :namespace \"a::b\" :base (wrapper i32)))"

/-- A module that mixes dots and colons may have two sections for one type: here they are the same
text. -/
theorem sections_coincide :
    ((compileText { options := {} } mixed).1.toOption.map fun r => r.report.success) = some true ∧
      ((compileText { options := {} } mixed).1.toOption.map fun r => r.declarations.map Output.name) =
        some [utf8 "a.b::X", utf8 "a::b::X"] ∧
      ((compileText { options := {} } mixed).1.toOption.map fun r =>
        r.declarations.map fun out => (out.contract?.isSome, out.type?.map TypeName.spelled)) =
        some [(true, some (utf8 "a::b::X")), (true, some (utf8 "a::b::X"))] ∧
      ((compileText { options := {} } mixed).1.toOption.map fun r =>
        (r.declarations.map Output.code).eraseDups.map List.isEmpty) = some [false] := by
  decide +kernel

end Compiler

end Equate
