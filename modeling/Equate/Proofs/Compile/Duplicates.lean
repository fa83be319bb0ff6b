import Equate.Proofs.Compile.Synthesis
/-!
# Declarations with one name

A name may be declared more than once in a module. The first declaration of a name comes out as if
its form were all that the module holds. Each later one keeps its own diagnostics, gets one more,
which points at both forms, and nothing is generated for it: `repeats_of_returns`. The diagnostics
of a module are those of its declarations, one declaration after the other.
-/

namespace Equate

/-- The error about a declaration at `location` whose name an earlier one at `first` has. -/
def Diagnostic.repeatedName (name : Bytes) (location first : Location) : Diagnostic :=
  { code := "ED001"
    severity := .error
    message := utf8 "duplicate declaration '" ++ name ++ utf8 "'"
    hint := "declaration names must be unique within a module"
    location
    notes := [⟨"first declared here", first⟩]
    declaration := name }

namespace Output

/-- What is left of the output `own` of a form at `location` if an earlier one at `first` has its
name. -/
structure IsRepeatOf (own : Output) (location first : Location) (out : Output) : Prop where
  success : out.report.success = false
  errors : out.report.errors = own.report.errors ++ [.repeatedName own.name location first]
  warnings : out.report.warnings = own.report.warnings
  withheld : out.Withheld

theorem isRepeatOf_duplicate (fixHints : Bool) (own : Output) (location first : Location) :
    own.IsRepeatOf location first (own.duplicate fixHints location first) := by
  refine ⟨rfl, ?_, rfl, withheld_duplicate fixHints own location first⟩
  cases fixHints <;> rfl

end Output

/-! ## Reports -/

namespace ModuleResult

/-- The report of a module holds what was wrong with the module itself, and behind it what the
reports of the declarations hold. -/
theorem report_ofOutputs (fixHints : Bool) (diagnostics : List Diagnostic) (forms : List Node)
    (outputs : List Output) :
    let r := ofOutputs fixHints diagnostics forms outputs
    r.report.errors =
        (Report.ofList diagnostics).errors ++ r.declarations.flatMap (·.report.errors) ∧
      r.report.warnings =
        (Report.ofList diagnostics).warnings ++ r.declarations.flatMap (·.report.warnings) := by
  have hmerge (outs : List Output) (r : Report) :
      (outs.foldl (fun r out => r.merge out.report) r).errors =
          r.errors ++ outs.flatMap (·.report.errors) ∧
        (outs.foldl (fun r out => r.merge out.report) r).warnings =
          r.warnings ++ outs.flatMap (·.report.warnings) := by
    induction outs generalizing r with
    | nil => simp
    | cons out outs ih =>
      obtain ⟨herrors, hwarnings⟩ := ih (r.merge out.report)
      rw [List.foldl_cons, herrors, hwarnings]
      simp [Report.merge]
  exact hmerge _ _

/-! ## First and later declarations of a name -/

theorem name_resolve (fixHints : Bool) (earlier : List (Node × Output)) (form : Node)
    (out : Output) : (resolve fixHints earlier form out).name = out.name := by
  unfold resolve
  split
  · rfl
  · split <;> rfl

variable {fixHints : Bool} {diagnostics : List Diagnostic} {forms : List Node} {f : Node → Output}

theorem names_ofOutputs :
    (ofOutputs fixHints diagnostics forms (forms.map f)).declarations.map Output.name =
      forms.map fun form => (f form).name := by
  apply List.ext_getElem?
  intro i
  rw [List.getElem?_map, getElem?_ofOutputs, List.getElem?_map, Option.map_map]
  exact congrArg (Option.map · _) (funext fun form => name_resolve _ _ _ _)

/-- The first of the forms in front of place `i` with a name is the first of all forms with it, if
that is in front of place `i`. -/
theorem find?_take (f : Node → Output) (forms : List Node) (name : Bytes) (i : Nat) :
    ((forms.take i).map fun g => (g, f g)).find? (fun p => p.2.name == name) =
      if (forms.map fun g => (f g).name).idxOf name < i then
        forms[(forms.map fun g => (f g).name).idxOf name]?.map fun g => (g, f g)
      else none := by
  have hidx : (forms.map fun g => (f g).name).idxOf name =
      forms.findIdx fun g => (f g).name == name := List.findIdx_map _ _ _
  rw [hidx, List.find?_map, List.find?_eq_getElem?_findIdx, List.findIdx_take]
  generalize hj : forms.findIdx (fun g => (f g).name == name) = j
  have hj' : forms.findIdx ((fun p => p.2.name == name) ∘ fun g => (g, f g)) = j := hj
  rw [hj']
  split
  · rename_i hlt
    rw [Nat.min_eq_right hlt.le, List.getElem?_take_of_lt hlt]
  · rename_i hge
    rw [Nat.min_eq_left (Nat.le_of_not_lt hge)]
    simp

end ModuleResult

namespace Compiler

/-- Without a cache, whatever the schedule: a declaration without a name, and the first declaration
of each name, are what a module of that form alone declares. Every later declaration of a name keeps
its diagnostics, gets one more error that points at its form and at the first one, and has neither a
contract nor a table nor code. The errors and the warnings of a module are those of its declarations
in their order. -/
theorem repeats_of_returns {c : Compiler} (hcache : c.options.cache = false) {m : Node} :
    c.Returns m (c.compile m).1 ∧ ∀ r, c.Returns m r →
      r.declarations.length = (c.formsOf m).length ∧
      (∀ i form out, (c.formsOf m)[i]? = some form → r.declarations[i]? = some out →
        ∃ own, (∀ alone r', c.formsOf alone = [form] → c.Returns alone r' →
            r'.declarations = [own]) ∧
          own = Output.ofForm c.options.fixHints form ∧ out.name = own.name ∧
          (out.name = [] ∨ (r.declarations.map Output.name).idxOf out.name = i → out = own) ∧
          ∀ j first, out.name ≠ [] → (r.declarations.map Output.name).idxOf out.name = j → j < i →
            (c.formsOf m)[j]? = some first →
              own.IsRepeatOf form.location first.location out) ∧
      (m.head = utf8 "module" →
        r.report.errors = r.declarations.flatMap (·.report.errors) ∧
          r.report.warnings = r.declarations.flatMap (·.report.warnings)) := by
  refine ⟨returns_compile c m, fun r hr => ?_⟩
  rw [eq_ofOutputs_of_returns hcache hr]
  refine ⟨?_, fun i form out hform hout => ?_, fun hhead => ?_⟩
  · simp [ModuleResult.ofOutputs, ModuleResult.length_markDuplicates]
  · refine ⟨_, fun alone r' halone hr' => ?_, rfl, ?_⟩
    · rw [eq_ofOutputs_of_returns hcache hr', halone]
      apply List.ext_getElem?
      intro j
      rw [ModuleResult.getElem?_ofOutputs]
      cases j <;> simp [ModuleResult.resolve]
    · rw [ModuleResult.getElem?_ofOutputs, hform, Option.map_some, Option.some.injEq] at hout
      subst hout
      rw [ModuleResult.name_resolve, ModuleResult.names_ofOutputs, ModuleResult.resolve,
        ModuleResult.find?_take]
      refine ⟨rfl, fun hfirst => ?_, fun j first hname hj hlt hget => ?_⟩
      · rcases hfirst with hname | hidx
        · rw [if_pos hname]
        · rw [hidx, if_neg (Nat.lt_irrefl i)]
          exact ite_self _
      · rw [if_neg hname, hj, if_pos hlt, hget]
        exact Output.isRepeatOf_duplicate _ _ _ _
  · obtain ⟨herrors, hwarnings⟩ := ModuleResult.report_ofOutputs c.options.fixHints
      (moduleDeclarations { fixHints := c.options.fixHints } m).1 (c.formsOf m)
      ((c.formsOf m).map (Output.ofForm c.options.fixHints))
    rw [herrors, hwarnings]
    unfold moduleDeclarations
    rw [if_pos hhead]
    exact ⟨rfl, rfl⟩

/-- A class with a malformed option, an enumeration, and two more declarations with the name of the
class, with classes without a name between them. -/
def thrice : Bytes :=
  utf8 "(module (class :name A :partial 1) (enumeration :name E :partial true) (class) " ++
    utf8 "(class :name A :base (wrapper i32)) (class) (enumeration :name A :partial true))"

def uncached : Compiler := { options := { cache := false, jobs := 2 } }

/-- The last declaration of the module repeats the name of the first one. -/
theorem repeats_thrice :
    ∃ m r first last out, Node.read thrice = .ok m ∧ uncached.Returns m r ∧
      r.declarations.map (fun out => (out.name, out.report.errors.length, out.code.isEmpty)) =
        [(utf8 "A", 1, true), (utf8 "E", 0, false), ([], 1, true), (utf8 "A", 1, true),
          ([], 1, true), (utf8 "A", 1, true)] ∧
      (uncached.formsOf m)[0]? = some first ∧ (uncached.formsOf m)[5]? = some last ∧
      r.declarations[5]? = some out ∧
      (Output.ofForm true last).IsRepeatOf last.location first.location out ∧
      r.report.errors = r.declarations.flatMap (·.report.errors) := by
  have hkinds : (Node.read thrice).toOption.map (fun m => (m.head,
      (uncached.compile m).1.declarations.map fun out =>
        (out.name, out.report.errors.length, out.code.isEmpty))) =
      some (utf8 "module", [(utf8 "A", 1, true), (utf8 "E", 0, false), ([], 1, true),
        (utf8 "A", 1, true), ([], 1, true), (utf8 "A", 1, true)]) := by decide +kernel
  cases hread : Node.read thrice with
  | error e =>
    rw [hread] at hkinds
    cases hkinds
  | ok m =>
    rw [hread] at hkinds
    obtain ⟨hhead, hkinds⟩ := Prod.mk.inj (Option.some.inj hkinds)
    obtain ⟨hreturns, hall⟩ := repeats_of_returns (c := uncached) rfl (m := m)
    obtain ⟨hlength, hout, hmerged⟩ := hall _ hreturns
    have hnames := congrArg (List.map Prod.fst) hkinds
    rw [List.map_map] at hnames
    have hsix : (uncached.compile m).1.declarations.length = 6 := by
      simpa using congrArg List.length hkinds
    have hform (i : Nat) (hi : i < 6) : ∃ form, (uncached.formsOf m)[i]? = some form :=
      ⟨_, List.getElem?_eq_getElem (by omega)⟩
    obtain ⟨first, hfirst⟩ := hform 0 (by decide)
    obtain ⟨last, hlast⟩ := hform 5 (by decide)
    obtain ⟨out, hget⟩ : ∃ out, (uncached.compile m).1.declarations[5]? = some out :=
      ⟨_, List.getElem?_eq_getElem (by omega)⟩
    have hname : out.name = utf8 "A" := by
      have h := congrArg (·[5]?) hnames
      rw [List.getElem?_map, hget] at h
      exact Option.some.inj h
    obtain ⟨own, -, rfl, -, -, hrepeat⟩ := hout 5 last out hlast hget
    refine ⟨m, _, first, last, out, rfl, hreturns, hkinds, hfirst, hlast, hget, ?_,
      (hmerged hhead).1⟩
    refine hrepeat 0 first (by rw [hname]; decide) ?_ (by decide) hfirst
    rw [hname]
    exact (congrArg (List.idxOf (utf8 "A")) hnames).trans (by decide)

end Compiler

end Equate
