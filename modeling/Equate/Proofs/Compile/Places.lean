import Equate.Proofs.Compile.Change
import Equate.Proofs.Compile.Key
import Equate.Proofs.Compile.Results
import Equate.Proofs.Contract.Relocation
import Equate.Proofs.Declaration.Places
import Equate.Proofs.Enumeration.Relocation
/-!
# Layouts of one text

Two texts that are laid out differently, but have the same nodes, compile to results that differ in
the places they tell only (`layout_changes_places_only`). The argument compares both with the result
of the nodes without their marks.
-/

namespace Equate

/-- Forgetting all places is a change of results: that which comes with forgetting the marks of
forms. -/
def forgetPlaces (fixHints : Bool) : OutputChange fixHints fixHints where
  node := Node.unmarked
  place := Location.forget
  diagnostic := Diagnostic.relocate Location.forget
  contract := Contract.relocate Location.forget
  location_node := Node.location_unmarked
  severity_diagnostic _ := rfl
  code_contract := Contract.code_relocate Location.forget
  diagnostic_finding _ _ _ _ _ := rfl

namespace Output

/-- The output with its diagnostics and contract at no place. -/
def unplaced (out : Output) : Output :=
  { out with
    report := out.report.map (Diagnostic.relocate Location.forget)
    contract? := out.contract?.map (Contract.relocate Location.forget) }

/-- A form without its marks compiles to what the form compiles to, at no place. -/
theorem ofForm_unmarked (fixHints : Bool) (form : Node) :
    ofForm fixHints form.unmarked = (ofForm fixHints form).unplaced := by
  have hreport (r : Reading) : (r.relocate Location.forget).report =
      r.report.map (Diagnostic.relocate Location.forget) := by
    rw [Reading.report, Reading.report,
      Report.map_ofList (f := Diagnostic.relocate Location.forget) fun _ => rfl]
    rfl
  rw [ofForm_eq_ofReading, ofForm_eq_ofReading, Declaration.read_unmarked]
  generalize Declaration.read { fixHints } form = r
  unfold ofReading
  rw [hreport]
  obtain ⟨name, diagnostics, _ | ⟨d⟩ | d⟩ := r
  · rfl
  · dsimp only [Reading.relocate, Option.map_some, Declaration.relocate]
    rw [d.check_relocate]
    exact (forgetPlaces fixHints).ofContractCheck_output name _ _
  · dsimp only [Reading.relocate, Option.map_some, Declaration.relocate]
    rw [d.check_relocate]
    exact (forgetPlaces fixHints).ofEnumerationCheck_output name _ _

end Output

namespace ModuleResult

/-- The result with its diagnostics and contracts at no place. -/
def unplaced (r : ModuleResult) : ModuleResult :=
  ⟨r.report.map (Diagnostic.relocate Location.forget), r.declarations.map Output.unplaced⟩

theorem source_unplaced (r : ModuleResult) : r.unplaced.source = r.source :=
  (forgetPlaces true).source_result r

/-- A module without its marks compiles to what the module compiles to, at no place. -/
theorem unplaced_ofOutputs (fixHints : Bool) (m : Node) :
    (ofOutputs fixHints (moduleDeclarations { fixHints } m).1 (moduleDeclarations { fixHints } m).2
        ((moduleDeclarations { fixHints } m).2.map (Output.ofForm fixHints))).unplaced =
      ofOutputs fixHints (moduleDeclarations { fixHints } m.unmarked).1
        (moduleDeclarations { fixHints } m.unmarked).2
        ((moduleDeclarations { fixHints } m.unmarked).2.map (Output.ofForm fixHints)) := by
  have houtputs : (moduleDeclarations { fixHints } m.unmarked).2.map (Output.ofForm fixHints) =
      ((moduleDeclarations { fixHints } m).2.map (Output.ofForm fixHints)).map Output.unplaced := by
    rw [moduleDeclarations_unmarked, List.map_map, List.map_map]
    exact List.map_congr_left fun form _ => Output.ofForm_unmarked fixHints form
  rw [houtputs, moduleDeclarations_unmarked]
  exact ((forgetPlaces fixHints).ofOutputs_result _ _ _).symm

end ModuleResult

namespace Compiler

/-- Without a cache two texts whose nodes differ in their marks only have results that differ in the
places they tell only, whatever the schedules. -/
theorem layout_changes_places_only {c c' : Compiler} (hcache : c.options.cache = false)
    (hcache' : c'.options.cache = false) (hhints : c.options.fixHints = c'.options.fixHints)
    {text text' : Bytes} {m m' : Node} (hread : Node.read text = .ok m)
    (hread' : Node.read text' = .ok m') (hsame : m.unmarked = m'.unmarked) :
    c.Yields text (c.compileText text).1 ∧ c'.Yields text' (c'.compileText text').1 ∧
      ∀ result result', c.Yields text result → c'.Yields text' result' →
        ∃ r r', result = .ok r ∧ result' = .ok r' ∧ r.unplaced = r'.unplaced ∧
          r.source = r'.source := by
  refine ⟨yields_compileText c text, yields_compileText c' text', fun result result' h h' => ?_⟩
  rw [eq_plainResult_of_yields hcache h, eq_plainResult_of_yields hcache' h', plainResult,
    plainResult, hread, hread', ← hhints]
  refine ⟨_, _, rfl, rfl, ?_⟩
  -- both results without their places are that of the one tree without marks
  have hunplaced := ModuleResult.unplaced_ofOutputs c.options.fixHints m
  rw [hsame, ← ModuleResult.unplaced_ofOutputs] at hunplaced
  exact ⟨hunplaced, by rw [← ModuleResult.source_unplaced, hunplaced, ModuleResult.source_unplaced]⟩

/-- A value object, a wrapper that is declared twice, and an enumeration. -/
def oneLine : Bytes :=
  utf8 "(module (class :name V :partial true :base value-object :attrs [value-object] " ++
    utf8 ":members [(field :name a :type i32 :readonly true :equality (include))]) " ++
    utf8 "(class :name W :base (wrapper i32)) (class :name W) " ++
    utf8 "(enumeration :name E :partial true :constants [(constant :name A :args [1 \"a\"])]))"

/-- The same on several lines, with a comment. -/
def severalLines : Bytes :=
  utf8 "; types\n(module\n  (class :name V :partial true\n    :base value-object\n" ++
    utf8 "    :attrs [value-object]\n    :members [\n" ++
    utf8 "      (field :name a :type i32 :readonly true :equality (include))])\n" ++
    utf8 "  (class :name W :base (wrapper i32))\n  (class :name W)\n" ++
    utf8 "  (enumeration :name E :partial true\n" ++
    utf8 "    :constants [(constant :name A :args [1 \"a\"])]))\n"

/-- A single worker and three workers give results that differ, but not in what is left without
places. -/
theorem layout_oneLine_severalLines :
    ∃ r r', (compileText ⟨{ cache := false }, .empty⟩ oneLine).1 = .ok r ∧
      (compileText ⟨{ cache := false, jobs := 3 }, .empty⟩ severalLines).1 = .ok r' ∧
      r ≠ r' ∧ r.unplaced = r'.unplaced ∧ r.source = r'.source := by
  have hdiffer : (compileText ⟨{ cache := false }, .empty⟩ oneLine).1 ≠
      (compileText ⟨{ cache := false, jobs := 3 }, .empty⟩ severalLines).1 := by
    decide +kernel
  have hsame : (Node.read oneLine).toOption.map Node.unmarked =
      (Node.read severalLines).toOption.map Node.unmarked := by
    decide +kernel
  have hreads : (Node.read oneLine).toOption.isSome = true := by decide +kernel
  cases hread : Node.read oneLine with
  | error e =>
    rw [hread] at hreads
    cases hreads
  | ok m =>
    cases hread' : Node.read severalLines with
    | error e =>
      rw [hread, hread'] at hsame
      cases hsame
    | ok m' =>
      rw [hread, hread'] at hsame
      obtain ⟨hyields, hyields', hall⟩ :=
        @layout_changes_places_only ⟨{ cache := false }, .empty⟩
          ⟨{ cache := false, jobs := 3 }, .empty⟩ rfl rfl rfl oneLine severalLines m m' hread hread'
          (Option.some.inj hsame)
      obtain ⟨r, r', hr, hr', hunplaced, hsource⟩ := hall _ _ hyields hyields'
      refine ⟨r, r', hr, hr', ?_, hunplaced, hsource⟩
      rintro rfl
      exact hdiffer (hr.trans hr'.symm)

end Compiler

end Equate
