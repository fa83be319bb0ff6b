import Equate.Proofs.Compile.Synthesis
import Equate.Proofs.Declaration.Parts
/-!
# Nothing is left out without an error

What a form writes as members, strategies, functions and constants is in the declaration that is
read from it, piece by piece and in order, if nothing is reported (`Declaration.Covers`). Otherwise
whatever is left out is told of by an error (`Declaration.Accounts`), and with an error nothing is
generated. The vectors and values that count are the last ones written for their keys.
-/

namespace Equate

/-- The strategy forms in the last value that a member form writes for `:equality`. -/
def Node.writtenStrategies (form : Node) : List Node :=
  ((form.written "equality").getLast?.map strategyForms).getD []

/-! ## Declarations that tell everything -/

/-- Whether a member is read from a form with all the strategies that the form writes. -/
structure Member.Covers (form : Node) (m : Member) : Prop where
  readFrom : m.ReadFrom form
  strategies : List.Forall₂ PlacedStrategy.ReadFrom form.writtenStrategies m.strategies

/-- Whether a class has all the members and functions that a form writes, in their order. -/
structure ClassDeclaration.Covers (form : Node) (d : ClassDeclaration) : Prop where
  members : List.Forall₂ Member.Covers (form.writtenItems "members") d.members
  functions : List.Forall₂ CompanionFunction.ReadFrom (form.writtenItems "functions") d.functions

/-- Whether an enumeration has all the constants that a form writes, in their order. -/
structure EnumDeclaration.Covers (form : Node) (d : EnumDeclaration) : Prop where
  constants : List.Forall₂ ConstantDeclaration.ReadFrom (form.writtenItems "constants") d.constants

def Declaration.Covers (form : Node) : Declaration → Prop
  | .classDeclaration d => d.Covers form
  | .enumeration d => d.Covers form

variable {form : Node}

theorem Member.covers_of_read {p : Nat} {m : Member} (hlegible : form.Legible)
    (h : read p form = ([], some m)) : m.Covers form := by
  refine ⟨readFrom_of_read (congrArg Prod.snd h), ?_⟩
  obtain ⟨kind, type, -, -, -, -, hstop, hfound, rfl⟩ := read_eq_nil_some_iff.1 h
  show List.Forall₂ _ _ (strategyReading form).2
  unfold strategyReading at hfound ⊢
  unfold Node.writtenStrategies
  rw [Node.value?_clauses_eq hlegible hstop] at hfound ⊢
  cases hlast : (form.written "equality").getLast? with
  | none => exact .nil
  | some v =>
    rw [hlast] at hfound
    exact PlacedStrategy.forall₂_readAll hfound

theorem ClassDeclaration.covers_ofForm (hlegible : form.Legible)
    (hoptions : form.optionFindings = []) (hparts : partFindings form = []) :
    (ofForm form).Covers form := by
  have hstop := (List.append_eq_nil_iff.1 hoptions).2
  obtain ⟨hmembers, hfunctions⟩ := List.append_eq_nil_iff.1 hparts
  simp only [List.append_eq_nil_iff] at hmembers
  obtain ⟨⟨⟨-, hmemberVector⟩, hmembers⟩, hfunctionVector⟩ := hmembers
  constructor
  · rw [← Node.formsFor_eq_writtenItems hlegible hstop hmemberVector]
    have hread := (Member.allReadAs_readAll {} 0 (form.formsFor "members")).forall₂_of_nil hmembers
    have hlegibles : ∀ x ∈ form.formsFor "members", x.Legible :=
      fun x hx => hlegible.of_mem_formsFor hx
    refine ((List.forall₂_and_left _ _).2 ⟨hlegibles, hread⟩).imp ?_
    rintro x m ⟨hlegible, p, hread⟩
    exact Member.covers_of_read hlegible hread
  · rw [← Node.formsFor_eq_writtenItems hlegible hstop hfunctionVector]
    exact CompanionFunction.forall₂_of_nil hfunctions

theorem EnumDeclaration.covers_ofForm (hlegible : form.Legible)
    (hoptions : form.optionFindings = []) (hparts : partFindings form = []) :
    (ofForm form).Covers form := by
  have hstop := (List.append_eq_nil_iff.1 hoptions).2
  obtain ⟨hvector, hconstants⟩ := List.append_eq_nil_iff.1 hparts
  constructor
  rw [← Node.formsFor_eq_writtenItems hlegible hstop hvector]
  exact ConstantDeclaration.forall₂_of_nil hconstants

/-! ## Errors about what is left out -/

/-- Whether a diagnostic tells why a part is left out that a form has in the value for a key: it
points into the part, or to where the options of the form break off, or to a value for the key that
is no vector. -/
inductive Diagnostic.TellsOf (form : Node) (key : Bytes) (part : Node) (d : Diagnostic) : Prop
  | inside {n : Node} (hn : n.Occurs part) (h : d.location = n.location)
  | options {f : Finding} (hf : f ∈ form.stop) (h : d.location = f.location)
  | vector {v : Node} (hv : v ∈ form.written key) (hitems : v.vectorItems? = none)
      (h : d.location = v.location)

/-- Whether every strategy form of a member form is read or told of. -/
structure Member.Accounts (ds : List Diagnostic) (form : Node) (m : Member) : Prop where
  readFrom : m.ReadFrom form
  strategies : ∀ s ∈ form.writtenStrategies,
    (∃ a ∈ m.strategies, a.ReadFrom s) ∨ ∃ d ∈ ds, d.TellsOf form "equality" s

/-- Whether every member form and every function form of a class is read or told of. -/
structure ClassDeclaration.Accounts (ds : List Diagnostic) (form : Node) (c : ClassDeclaration) :
    Prop where
  members : ∀ x ∈ form.writtenItems "members",
    (∃ m ∈ c.members, m.Accounts ds x) ∨ ∃ d ∈ ds, d.TellsOf form "members" x
  functions : ∀ x ∈ form.writtenItems "functions",
    (∃ f ∈ c.functions, f.ReadFrom x) ∨ ∃ d ∈ ds, d.TellsOf form "functions" x

/-- Whether every constant form of an enumeration is read or told of. -/
structure EnumDeclaration.Accounts (ds : List Diagnostic) (form : Node) (e : EnumDeclaration) :
    Prop where
  constants : ∀ x ∈ form.writtenItems "constants",
    (∃ c ∈ e.constants, c.ReadFrom x) ∨ ∃ d ∈ ds, d.TellsOf form "constants" x

def Declaration.Accounts (ds : List Diagnostic) (form : Node) : Declaration → Prop
  | .classDeclaration d => d.Accounts ds form
  | .enumeration d => d.Accounts ds form

/-- Whether all of the findings are reported where they are. -/
def AreReported (fs : List Finding) (ds : List Diagnostic) : Prop :=
  ∀ f ∈ fs, ∃ d ∈ ds, d.location = f.location

variable {ds : List Diagnostic} {key : Bytes} {x : Node}

theorem AreReported.mono {fs gs : List Finding} (h : AreReported gs ds) (hfs : fs ⊆ gs) :
    AreReported fs ds :=
  fun f hf => h f (hfs hf)

theorem areReported_append {fs gs : List Finding} :
    AreReported (fs ++ gs) ds ↔ AreReported fs ds ∧ AreReported gs ds :=
  List.forall_mem_append

/-- A part that is not among the forms that are read is told of. -/
theorem mem_formsFor_or_tellsOf (hlegible : form.Legible)
    (hds : AreReported (form.stop ++ (vectorClause key form.clauses).1) ds)
    (hx : x ∈ form.writtenItems key) :
    x ∈ form.formsFor key ∨ ∃ d ∈ ds, d.TellsOf form key x := by
  rcases Node.mem_formsFor_or_exists_finding hlegible hx with
    hx | ⟨f, hf⟩ | ⟨f, hf, v, hv, hitems, hlocation⟩
  · exact .inl hx
  · obtain ⟨d, hd, h⟩ := hds f (List.mem_append_left _ hf)
    exact .inr ⟨d, hd, .options hf h⟩
  · obtain ⟨d, hd, h⟩ := hds f (List.mem_append_right _ hf)
    exact .inr ⟨d, hd, .vector hv hitems (h.trans hlocation)⟩

/-- A finding in a part tells of it. -/
theorem exists_tellsOf_of_finding {fs : List Finding} (hds : AreReported fs ds)
    (h : ∃ f ∈ fs, ∃ n, Node.Occurs n x ∧ f.location = n.location) :
    ∃ d ∈ ds, d.TellsOf form key x := by
  obtain ⟨f, hf, n, hn, hlocation⟩ := h
  obtain ⟨d, hd, h⟩ := hds f hf
  exact ⟨d, hd, .inside hn (h.trans hlocation)⟩

theorem Member.accounts_of_read {p : Nat} {m : Member} (hlegible : x.Legible)
    (hread : (read p x).2 = some m) (hds : AreReported (read p x).1 ds) : m.Accounts ds x := by
  obtain ⟨hstrategies, hfound⟩ := strategies_of_read hread
  rw [hfound] at hds
  refine ⟨readFrom_of_read hread, fun s hs => ?_⟩
  cases hstop : x.stop with
  | cons f fs =>
    have hf : f ∈ x.stop := hstop ▸ List.mem_cons_self
    obtain ⟨d, hd, h⟩ := hds f (List.mem_append_left _ hf)
    exact .inr ⟨d, hd, .options hf h⟩
  | nil =>
    rw [hstrategies]
    unfold Node.writtenStrategies at hs
    unfold strategyReading at hds ⊢
    rw [Node.value?_clauses_eq hlegible hstop] at hds ⊢
    cases hlast : (x.written "equality").getLast? with
    | none =>
      rw [hlast] at hs
      cases hs
    | some v =>
      rw [hlast] at hs hds
      refine (PlacedStrategy.exists_of_mem_strategyForms hs).imp_right fun ⟨f, hf, hlocation⟩ => ?_
      exact exists_tellsOf_of_finding hds ⟨f, List.mem_append_right _ hf, s, .self s, hlocation⟩

theorem ClassDeclaration.accounts_ofForm (hlegible : form.Legible)
    (hds : AreReported (form.optionFindings ++ partFindings form) ds) :
    (ofForm form).Accounts ds form := by
  simp only [Node.optionFindings, partFindings, areReported_append] at hds
  obtain ⟨⟨-, hstop⟩, ⟨⟨⟨-, hmemberVector⟩, hmembers⟩, hfunctionVector⟩, hfunctions⟩ := hds
  constructor
  · intro x hx
    rcases mem_formsFor_or_tellsOf hlegible (areReported_append.2 ⟨hstop, hmemberVector⟩) hx with
      hx | htells
    · rcases (Member.allReadAs_readAll {} 0 _).kept_or_exists_finding hx with
        ⟨m, hm, p, hread, hfound⟩ | hfound
      · exact .inl ⟨m, hm, Member.accounts_of_read (hlegible.of_mem_formsFor hx) hread
          (hmembers.mono hfound)⟩
      · exact .inr (exists_tellsOf_of_finding hmembers hfound)
    · exact .inr htells
  · intro x hx
    rcases mem_formsFor_or_tellsOf hlegible (areReported_append.2 ⟨hstop, hfunctionVector⟩) hx with
      hread | htells
    · exact (CompanionFunction.kept_or_exists_finding hread).imp_right
        (exists_tellsOf_of_finding hfunctions)
    · exact .inr htells

theorem EnumDeclaration.accounts_ofForm (hlegible : form.Legible)
    (hds : AreReported (form.optionFindings ++ partFindings form) ds) :
    (ofForm form).Accounts ds form := by
  simp only [Node.optionFindings, partFindings, areReported_append] at hds
  obtain ⟨⟨-, hstop⟩, hvector, hconstants⟩ := hds
  constructor
  intro x hx
  rcases mem_formsFor_or_tellsOf hlegible (areReported_append.2 ⟨hstop, hvector⟩) hx with
    hread | htells
  · exact (ConstantDeclaration.kept_or_exists_finding 0 hread).imp_right
      (exists_tellsOf_of_finding hconstants)
  · exact .inr htells

/-! ## Forms -/

namespace Declaration

theorem areReported_findings (rep : Reporter) (form : Node) :
    AreReported (findings form) (read rep form).diagnostics := by
  intro f hf
  obtain ⟨d, hd, rep', rfl⟩ := exists_diagnostic_of_mem_findings rep hf
  exact ⟨_, hd, rfl⟩

theorem covers_of_diagnostics_eq_nil {rep : Reporter} (hlegible : form.Legible)
    (hnil : (read rep form).diagnostics = []) :
    ∃ d, (read rep form).declaration? = some d ∧ d.Covers form := by
  cases hd : (read rep form).declaration? with
  | none => exact absurd hnil (diagnostics_ne_nil rep hd)
  | some d =>
    refine ⟨d, rfl, ?_⟩
    have hread := readAs_of_read hd
    have hfindings := diagnostics_eq_nil_iff.1 hnil
    generalize findings form = findings at hread hfindings
    cases hread with
    | classDeclaration =>
      obtain ⟨hoptions, hparts⟩ := List.append_eq_nil_iff.1 hfindings
      exact ClassDeclaration.covers_ofForm hlegible hoptions hparts
    | enumeration =>
      obtain ⟨hoptions, hparts⟩ := List.append_eq_nil_iff.1 hfindings
      exact EnumDeclaration.covers_ofForm hlegible hoptions hparts

theorem accounts_of_read {rep : Reporter} (hlegible : form.Legible) {d : Declaration}
    (h : (read rep form).declaration? = some d) : d.Accounts (read rep form).diagnostics form := by
  have hread := readAs_of_read h
  have hds := areReported_findings rep form
  generalize findings form = findings at hread hds
  cases hread with
  | classDeclaration => exact ClassDeclaration.accounts_ofForm hlegible hds
  | enumeration => exact EnumDeclaration.accounts_ofForm hlegible hds

/-- Errors in a form keep everything from being generated for it. -/
theorem withheld_of_diagnostics_ne_nil {rep : Reporter} (hne : (read rep form).diagnostics ≠ []) :
    (Output.ofForm rep.fixHints form).report.errors ≠ [] ∧
      (Output.ofForm rep.fixHints form).Withheld := by
  have herrors : (Output.ofForm rep.fixHints form).report.errors ≠ [] := by
    rw [Output.errors_ofForm]
    refine List.append_ne_nil_of_left_ne_nil ?_ _
    exact fun hnil => hne (diagnostics_eq_nil_iff.2 (diagnostics_eq_nil_iff.1 hnil))
  rcases Output.withheld_or_synthesized rep.fixHints form with h | ⟨hnil, -⟩
  · exact h
  · exact absurd hnil herrors

/-- Nothing that a form from a text writes is dropped in silence. If nothing is reported, the
declaration that is read from it has all members with all their strategies, all functions or all
constants, in order. If something is, then errors for malformed declarations tell of whatever is
left out, and nothing is generated. -/
theorem covers_or_accounts {text : Bytes} {origin : Nat} {root form : Node}
    (hread : Node.read text origin = .ok root) (hoccurs : form.Occurs root) (rep : Reporter) :
    ((read rep form).diagnostics = [] →
        ∃ d, (read rep form).declaration? = some d ∧ d.Covers form) ∧
      (∀ d, (read rep form).declaration? = some d →
        d.Accounts (read rep form).diagnostics form) ∧
      (∀ d ∈ (read rep form).diagnostics, d.code = "ED001" ∧ d.severity = .error) ∧
      ((read rep form).diagnostics ≠ [] →
        (Output.ofForm rep.fixHints form).report.errors ≠ [] ∧
          (Output.ofForm rep.fixHints form).Withheld) := by
  have hlegible := (Node.legible_of_read hread).of_occurs hoccurs
  refine ⟨covers_of_diagnostics_eq_nil hlegible, fun d hd => accounts_of_read hlegible hd,
    fun d hd => ?_, withheld_of_diagnostics_ne_nil⟩
  obtain ⟨f, -, rep', rfl⟩ := exists_finding_of_mem_diagnostics hd
  exact ⟨rfl, rfl⟩

/-- A class that is read to the last strategy, and one with a field that has no type. -/
def halfRead : Bytes :=
  utf8 "(module (class :name A :members [(field :name x :type i32 " ++
    utf8 ":equality [(include :order 1) (ignore)])] :functions [(fn :name f)]) " ++
    utf8 "(class :name B :members [(field :name x :type i32) (field :name y)]))"

theorem covers_or_accounts_halfRead :
    ∃ root a b d e, Node.read halfRead = .ok root ∧ root.arguments = [a, b] ∧
      (read {} a).declaration? = some d ∧ d.Covers a ∧
      (read {} b).declaration? = some e ∧ e.Accounts (read {} b).diagnostics b ∧
      (read {} b).diagnostics.length = 1 ∧ (Output.ofForm true b).Withheld := by
  have hkinds : (Node.read halfRead).toOption.map (fun root => root.arguments.map fun form =>
      ((read {} form).diagnostics.length, (read {} form).declaration?.isSome)) =
      some [(0, true), (1, true)] := by decide +kernel
  cases hread : Node.read halfRead with
  | error e =>
    rw [hread] at hkinds
    cases hkinds
  | ok root =>
    rw [hread] at hkinds
    obtain ⟨a, rest, harguments, ha, hrest⟩ := List.map_eq_cons_iff.1 (Option.some.inj hkinds)
    obtain ⟨b, rest, rfl, hb, hnil⟩ := List.map_eq_cons_iff.1 hrest
    obtain rfl := List.map_eq_nil_iff.1 hnil
    obtain ⟨ha, -⟩ := Prod.mk.inj ha
    obtain ⟨hb, hdeclared⟩ := Prod.mk.inj hb
    have hoccurs (form : Node) (h : form ∈ root.arguments) : form.Occurs root :=
      .child (Node.mem_children_of_mem_arguments h) (.self form)
    obtain ⟨hcovers, -⟩ := covers_or_accounts hread (hoccurs a (by simp [harguments])) {}
    obtain ⟨-, haccounts, -, hwithheld⟩ :=
      covers_or_accounts hread (hoccurs b (by simp [harguments])) {}
    obtain ⟨d, hd, hcovers⟩ := hcovers (List.length_eq_zero_iff.1 ha)
    obtain ⟨e, he⟩ := Option.isSome_iff_exists.1 hdeclared
    refine ⟨root, a, b, d, e, rfl, harguments, hd, hcovers, he, haccounts e he, hb, ?_⟩
    exact (hwithheld fun hnil => by simp [hnil] at hb).2

end Declaration

end Equate
