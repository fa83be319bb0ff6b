import Equate.Proofs.Compile.Change
import Equate.Proofs.Compile.Key
import Equate.Proofs.Compile.Origin
import Equate.Proofs.Contract.Acceptance
/-!
# Fix hints

Whether diagnostics carry fixes has no influence on anything else in the result of a text
(`Compiler.hints_add_fixes_only`), as long as the cache tells forms apart: a form can have the key
of another one with fix hints, and a key of its own without.

On several workers the outputs are told by the keys on one side. On a single worker it is enough
that two forms share their key on both sides, since both caches then hold the output of the same
form at any time: this is what `Cache.Match` says, and `Cache.Match.compileForm` keeps.
-/

namespace Equate

/-! ## Diagnostics without fixes -/

def Diagnostic.withoutFixes (d : Diagnostic) : Diagnostic := { d with fixes := [] }

/-- Findings have no fixes to begin with. -/
theorem Finding.diagnostic_fixHints (name : Bytes) (fixHints : Bool) (f : Finding) :
    f.diagnostic ⟨name, fixHints⟩ = f.diagnostic ⟨name, false⟩ := by
  cases fixHints <;> rfl

theorem Finding.fixes_diagnostic (rep : Reporter) (f : Finding) :
    (f.diagnostic rep).fixes = [] := by
  obtain ⟨name, fixHints⟩ := rep
  cases fixHints <;> rfl

theorem Diagnostic.withoutFixes_of_fixes {d : Diagnostic} (h : d.fixes = []) :
    d.withoutFixes = d := by
  rw [withoutFixes, ← h]

/-- Emptying the fixes of diagnostics is a change to results without fix hints. -/
def dropFixes (fixHints : Bool) : OutputChange fixHints false where
  node := id
  place := id
  diagnostic := Diagnostic.withoutFixes
  contract := id
  location_node _ := rfl
  severity_diagnostic _ := rfl
  code_contract _ := rfl
  diagnostic_finding name fault location note first := by
    rw [Finding.diagnostic_fixHints]
    rfl

@[simp] theorem diagnostic_dropFixes (fixHints : Bool) :
    (dropFixes fixHints).diagnostic = Diagnostic.withoutFixes := rfl

@[simp] theorem contract_dropFixes (fixHints : Bool) : (dropFixes fixHints).contract = id := rfl

/-! ## Forms -/

theorem Declaration.read_fixHints (name : Bytes) (fixHints : Bool) (form : Node) :
    read ⟨name, fixHints⟩ form = read ⟨name, false⟩ form := by
  have hfinding (name : Bytes) :
      Finding.diagnostic ⟨name, fixHints⟩ = Finding.diagnostic ⟨name, false⟩ :=
    funext (Finding.diagnostic_fixHints name fixHints)
  simp only [read, Reading.ofPartial, hfinding]

theorem Reading.fixes_of_mem_ofPartial {α : Type} {rep : Reporter} {q : α → Bytes}
    {wrap : α → Declaration} {r : PartialReading α} {d : Diagnostic}
    (h : d ∈ (ofPartial rep q wrap r).diagnostics) : d.fixes = [] := by
  unfold ofPartial at h
  cases hr : r.declaration? with
  | none =>
    rw [hr] at h
    obtain ⟨f, -, rfl⟩ := List.mem_map.1 h
    exact f.fixes_diagnostic rep
  | some e =>
    rw [hr] at h
    rcases List.mem_append.1 h with h | h
    · obtain ⟨f, -, rfl⟩ := List.mem_map.1 h
      exact f.fixes_diagnostic rep
    · obtain ⟨f, -, rfl⟩ := List.mem_map.1 h
      exact f.fixes_diagnostic _

theorem Declaration.fixes_of_mem_diagnostics {rep : Reporter} {form : Node} {d : Diagnostic}
    (h : d ∈ (read rep form).diagnostics) : d.fixes = [] := by
  unfold read at h
  split at h
  · exact Reading.fixes_of_mem_ofPartial h
  split at h
  · exact Reading.fixes_of_mem_ofPartial h
  · rw [List.mem_singleton.1 h]
    exact Finding.fixes_diagnostic rep _

theorem moduleDeclarations_fixHints (fixHints : Bool) (m : Node) :
    moduleDeclarations { fixHints } m = moduleDeclarations { fixHints := false } m := by
  simp only [moduleDeclarations, Finding.diagnostic_fixHints [] fixHints]

theorem ClassDeclaration.check_false (fixHints : Bool) (d : ClassDeclaration) :
    d.check false =
      ⟨(d.check fixHints).report.map Diagnostic.withoutFixes, (d.check fixHints).contract?⟩ := by
  have hdiagnostics : d.violations.map (Violation.diagnostic ⟨d.qualifiedName, false⟩ d) =
      (d.violations.map (Violation.diagnostic ⟨d.qualifiedName, fixHints⟩ d)).map
        Diagnostic.withoutFixes := by
    rw [List.map_map]
    rfl
  simp only [check_eq, conclude, hdiagnostics,
    ← Report.map_ofList (f := Diagnostic.withoutFixes) fun _ => rfl]
  rfl

theorem EnumDeclaration.check_false (fixHints : Bool) (d : EnumDeclaration) :
    d.check false =
      ⟨(d.check fixHints).report.map Diagnostic.withoutFixes, (d.check fixHints).table?⟩ := by
  have hdiagnostics : d.violations.map (EnumViolation.diagnostic ⟨d.qualifiedName, false⟩ d) =
      (d.violations.map (EnumViolation.diagnostic ⟨d.qualifiedName, fixHints⟩ d)).map
        Diagnostic.withoutFixes := by
    rw [List.map_map]
    rfl
  simp only [check_eq, hdiagnostics,
    ← Report.map_ofList (f := Diagnostic.withoutFixes) fun _ => rfl]
  rfl

namespace Output

/-- The output of a form without fix hints is the one with fix hints, without its fixes. -/
theorem ofForm_false (fixHints : Bool) (form : Node) :
    ofForm false form = (dropFixes fixHints).output (ofForm fixHints form) := by
  have hreport : (Declaration.read { fixHints := false } form).report.map Diagnostic.withoutFixes =
      (Declaration.read { fixHints := false } form).report := by
    rw [Reading.report, Report.map_ofList (f := Diagnostic.withoutFixes) fun _ => rfl]
    rw [List.map_congr_left fun d hd =>
      Diagnostic.withoutFixes_of_fixes (Declaration.fixes_of_mem_diagnostics hd), List.map_id']
  rw [ofForm_eq_ofReading, ofForm_eq_ofReading, Declaration.read_fixHints [] fixHints]
  generalize Declaration.read { fixHints := false } form = r at hreport
  unfold ofReading
  rcases r.declaration? with _ | ⟨d⟩ | d <;> dsimp only
  · simp [OutputChange.output, hreport]
  · rw [← OutputChange.ofContractCheck_output, d.check_false fixHints, diagnostic_dropFixes,
      contract_dropFixes, hreport, Option.map_id]
    rfl
  · rw [← OutputChange.ofEnumerationCheck_output, d.check_false fixHints, diagnostic_dropFixes,
      hreport]

def withoutFixes (out : Output) : Output :=
  { out with report := out.report.map Diagnostic.withoutFixes }

theorem output_dropFixes (fixHints : Bool) (out : Output) :
    (dropFixes fixHints).output out = out.withoutFixes := by
  rw [OutputChange.output, contract_dropFixes, Option.map_id]
  rfl

theorem withoutFixes_ofForm (fixHints : Bool) (form : Node) :
    (ofForm fixHints form).withoutFixes = ofForm false form := by
  rw [← output_dropFixes fixHints, ← ofForm_false]

end Output

def ModuleResult.withoutFixes (r : ModuleResult) : ModuleResult :=
  ⟨r.report.map Diagnostic.withoutFixes, r.declarations.map Output.withoutFixes⟩

theorem ModuleResult.result_dropFixes (fixHints : Bool) (r : ModuleResult) :
    (dropFixes fixHints).result r = r.withoutFixes := by
  rw [OutputChange.result, funext (Output.output_dropFixes fixHints)]
  rfl

/-- Without its fixes a result is that of the outputs without theirs. -/
theorem ModuleResult.withoutFixes_ofOutputs (fixHints : Bool) (m : Node) (forms : List Node)
    (outputs : List Output) :
    (ofOutputs fixHints (moduleDeclarations { fixHints } m).1 forms outputs).withoutFixes =
      ofOutputs false (moduleDeclarations { fixHints := false } m).1 forms
        (outputs.map Output.withoutFixes) := by
  have hdiagnostics : (moduleDeclarations { fixHints } m).1.map Diagnostic.withoutFixes =
      (moduleDeclarations { fixHints := false } m).1 := by
    rw [moduleDeclarations_fixHints]
    unfold moduleDeclarations
    split <;> rfl
  have h :=
    (dropFixes fixHints).ofOutputs_result (moduleDeclarations { fixHints } m).1 forms outputs
  rw [result_dropFixes, funext (Output.output_dropFixes fixHints), diagnostic_dropFixes,
    hdiagnostics] at h
  rw [← h]
  exact congrArg (fun fs => ofOutputs false _ fs _) (List.map_id forms)

/-! ## Keys -/

/-- Whether forms that share their key with fix hints `a` share their output, or also their key
with fix hints `b`; the latter is of use to a single worker only. -/
def KeysCarryOver (jobs : Nat) (a b : Bool) (forms : List Node) : Prop :=
  ∀ f ∈ forms, ∀ g ∈ forms, Output.key a f = Output.key a g →
    Output.ofForm a f = Output.ofForm a g ∨ jobs ≤ 1 ∧ Output.key b f = Output.key b g

section SingleWorker

variable {o o' : Options} {c c' : Cache Output} {forms : List Node}

/-- A form gets what the cache has for it, and from then on all forms of its key get the same. -/
theorem compileForm_of_cache (hcache : o.cache = true) (c : Cache Output) (g : Node) :
    (compileForm o c g).1 = c.outputFor o g ∧
      ∀ key, (compileForm o c g).2.1.value? key =
        if Output.key o.fixHints g = key then some (c.outputFor o g) else c.value? key := by
  have hfind : (findOutput o c g).1 = c.value? (Output.key o.fixHints g) := by
    rw [findOutput_fst, if_pos hcache]
  rw [Cache.outputFor, if_pos hcache]
  cases hvalue : c.value? (Output.key o.fixHints g) with
  | some out =>
    rw [compileForm_of_found (hfind.trans hvalue)]
    refine ⟨rfl, fun key => ?_⟩
    dsimp only
    rw [value?_findOutput]
    split
    · rename_i hkey
      rw [← hkey, hvalue]
      rfl
    · rfl
  | none =>
    rw [compileForm_of_missed (hfind.trans hvalue)]
    refine ⟨rfl, fun key => ?_⟩
    dsimp only
    rw [storeOutput, if_pos hcache, Cache.value?_store, value?_findOutput]
    rfl

theorem outputFor_compileForm (hcache : o.cache = true) (c : Cache Output) (g f : Node) :
    (compileForm o c g).2.1.outputFor o f =
      if Output.key o.fixHints g = Output.key o.fixHints f then c.outputFor o g
      else c.outputFor o f := by
  rw [Cache.outputFor, if_pos hcache, (compileForm_of_cache hcache c g).2]
  split
  · rfl
  · rw [Cache.outputFor, if_pos hcache]

theorem outputFor_congr {f g : Node} (hkey : Output.key o.fixHints f = Output.key o.fixHints g)
    (hout : Output.ofForm o.fixHints f = Output.ofForm o.fixHints g) :
    c.outputFor o f = c.outputFor o g := by
  rw [Cache.outputFor, Cache.outputFor, hkey, hout]

/-- Whether two caches hold the same for all forms, but for fixes. -/
def Cache.Match (o o' : Options) (forms : List Node) (c c' : Cache Output) : Prop :=
  ∀ f ∈ forms, (c.outputFor o f).withoutFixes = (c'.outputFor o' f).withoutFixes

theorem Cache.match_empty (o o' : Options) (forms : List Node) :
    (empty : Cache Output).Match o o' forms empty := by
  intro f _
  simp only [outputFor, value?_empty, Option.getD_none, ite_self, Output.withoutFixes_ofForm]

/-- The step: where one cache has replaced what a form gets and the other has not, the forms share
their output. -/
theorem Cache.Match.compileForm (hcache : o.cache = true) (hcache' : o'.cache = true)
    (hkeys : KeysCarryOver o.jobs o.fixHints o'.fixHints forms)
    (hkeys' : KeysCarryOver o'.jobs o'.fixHints o.fixHints forms)
    (h : c.Match o o' forms c') {g : Node} (hg : g ∈ forms) :
    (compileForm o c g).2.1.Match o o' forms (compileForm o' c' g).2.1 := by
  intro f hf
  rw [outputFor_compileForm hcache, outputFor_compileForm hcache']
  by_cases hkey : Output.key o.fixHints g = Output.key o.fixHints f
  · by_cases hkey' : Output.key o'.fixHints g = Output.key o'.fixHints f
    · rw [if_pos hkey, if_pos hkey', h g hg]
    -- `f` now gets the output of `g` here, but not there
    · rw [if_pos hkey, if_neg hkey', ← h f hf]
      rcases hkeys g hg f hf hkey with hout | ⟨-, hboth⟩
      · rw [outputFor_congr hkey hout]
      · exact absurd hboth hkey'
  · by_cases hkey' : Output.key o'.fixHints g = Output.key o'.fixHints f
    · rw [if_neg hkey, if_pos hkey', h f hf]
      rcases hkeys' g hg f hf hkey' with hout | ⟨-, hboth⟩
      · rw [outputFor_congr hkey' hout]
      · exact absurd hboth hkey
    · rw [if_neg hkey, if_neg hkey', h f hf]

theorem Cache.Match.compileSerially (hcache : o.cache = true) (hcache' : o'.cache = true)
    (hkeys : KeysCarryOver o.jobs o.fixHints o'.fixHints forms)
    (hkeys' : KeysCarryOver o'.jobs o'.fixHints o.fixHints forms)
    (h : c.Match o o' forms c') {fs : List Node} (hfs : ∀ f ∈ fs, f ∈ forms) :
    (compileSerially o c fs).1.map Output.withoutFixes =
      (compileSerially o' c' fs).1.map Output.withoutFixes := by
  induction fs generalizing c c' with
  | nil => rfl
  | cons f fs ih =>
    have hf := hfs f (by simp)
    have hout : (Equate.compileForm o c f).1.withoutFixes =
        (Equate.compileForm o' c' f).1.withoutFixes := by
      rw [(compileForm_of_cache hcache c f).1, (compileForm_of_cache hcache' c' f).1, h f hf]
    have htail := ih (h.compileForm hcache hcache' hkeys hkeys' hf) fun g hg => hfs g (by simp [hg])
    simp only [Equate.compileSerially, List.map_cons, hout, htail]

end SingleWorker

/-! ## Results -/

namespace Compiler

theorem formsOf_fixHints (o : Options) (cache : Cache Output) (m : Node) :
    formsOf ⟨o, cache⟩ m = (moduleDeclarations { fixHints := false } m).2 := by
  rw [formsOf, moduleDeclarations_fixHints]

theorem keysDetermineOutputs_of_carryOver {jobs : Nat} {a b : Bool} {forms : List Node}
    (hjobs : ¬ jobs ≤ 1) (h : KeysCarryOver jobs a b forms) : KeysDetermineOutputs a forms :=
  fun f hf g hg hkey => (h f hf g hg hkey).resolve_right fun hboth => hjobs hboth.1

theorem withoutFixes_map_outputFor_empty (o : Options) (forms : List Node) :
    (forms.map ((Cache.empty : Cache Output).outputFor o)).map Output.withoutFixes =
      forms.map (Output.ofForm false) := by
  rw [List.map_map]
  refine List.map_congr_left fun form _ => ?_
  simp only [Function.comp_apply, Cache.outputFor, Cache.value?_empty, Option.getD_none, ite_self,
    Output.withoutFixes_ofForm]

/-- New compilers with and without fix hints give one result but for the fixes. -/
theorem withoutFixes_eq_of_yields {o o' : Options} (hjobs : o.jobs = o'.jobs)
    (hcache : o.cache = o'.cache) {text : Bytes}
    (hkeys : o.cache = true →
      KeysCarryOver o.jobs o.fixHints o'.fixHints (submittedForms false text) ∧
        KeysCarryOver o.jobs o'.fixHints o.fixHints (submittedForms false text))
    {result result' : Except ReadError ModuleResult} (h : Yields ⟨o, .empty⟩ text result)
    (h' : Yields ⟨o', .empty⟩ text result') :
    result.map ModuleResult.withoutFixes = result'.map ModuleResult.withoutFixes := by
  unfold submittedForms at hkeys
  cases hread : Node.read text with
  | error e =>
    rw [eq_error_of_yields hread h, eq_error_of_yields hread h']
  | ok m =>
    rw [hread] at hkeys
    dsimp only at hkeys
    by_cases hserial : o.cache = true ∧ o.jobs ≤ 1
    · obtain ⟨hon, hone⟩ := hserial
      obtain ⟨hthere, hback⟩ := hkeys hon
      rw [eq_of_yields_of_jobs_le hone hread h, eq_of_yields_of_jobs_le (hjobs ▸ hone) hread h']
      simp only [Except.map, ModuleResult.withoutFixes_ofOutputs, formsOf_fixHints]
      rw [(Cache.match_empty o o' _).compileSerially hon (hcache ▸ hon) hthere (hjobs ▸ hback)
        fun _ h => h]
    · have hthere : o.cache = true → KeysDetermineOutputs o.fixHints (formsOf ⟨o, .empty⟩ m) := by
        intro hon
        rw [formsOf_fixHints]
        exact keysDetermineOutputs_of_carryOver (fun hone => hserial ⟨hon, hone⟩) (hkeys hon).1
      have hback : o'.cache = true →
          KeysDetermineOutputs o'.fixHints (formsOf ⟨o', .empty⟩ m) := by
        rw [← hcache]
        intro hon
        rw [formsOf_fixHints]
        exact keysDetermineOutputs_of_carryOver (fun hone => hserial ⟨hon, hone⟩) (hkeys hon).2
      rw [eq_of_yields hread hthere h, eq_of_yields hread hback h']
      simp only [Except.map, ModuleResult.withoutFixes_ofOutputs, formsOf_fixHints,
        withoutFixes_map_outputFor_empty]

/-- What was compiled without fix hints has no fixes, also what comes from the cache of an earlier
compilation. -/
theorem withoutFixes_of_yields_run {o : Options} (hoff : o.fixHints = false)
    (actions : List CompilerAction) {text : Bytes} {r : ModuleResult}
    (h : Yields (run ⟨o, .empty⟩ actions).2 text (.ok r)) : r.withoutFixes = r := by
  have hform (form : Node) : (Output.ofForm o.fixHints form).withoutFixes =
      Output.ofForm o.fixHints form := by
    rw [hoff, Output.withoutFixes_ofForm]
  obtain ⟨hall, hoptions⟩ := all_run (P := fun out => out.withoutFixes = out) (c := ⟨o, .empty⟩)
    hform Cache.all_empty actions
  obtain ⟨m, outputs, houtputs, rfl⟩ := exists_outputs_of_yields (hoptions ▸ hform) hall h
  have hmap : outputs.map Output.withoutFixes = outputs := by
    rw [List.map_congr_left houtputs, List.map_id']
  rw [hoptions, ModuleResult.withoutFixes_ofOutputs, hmap, hoff]

theorem source_withoutFixes (r : ModuleResult) : r.withoutFixes.source = r.source := by
  rw [← ModuleResult.result_dropFixes true, OutputChange.source_result]

/-- Fix hints, tracing and logging have no influence on results but for the fixes, whatever the
schedules, if forms that share a key on one side share their output, or on a single worker their key
on the other side. Without a cache no such condition is needed. Without fix hints no diagnostic has
a fix, whatever the compiler remembers of the texts it compiled before. -/
theorem hints_add_fixes_only {o o' : Options} (hjobs : o.jobs = o'.jobs)
    (hcache : o.cache = o'.cache) (text : Bytes) :
    ((o.cache = true →
        KeysCarryOver o.jobs o.fixHints o'.fixHints (submittedForms false text) ∧
          KeysCarryOver o.jobs o'.fixHints o.fixHints (submittedForms false text)) →
      ∀ result result', Yields ⟨o, .empty⟩ text result → Yields ⟨o', .empty⟩ text result' →
        result.map ModuleResult.withoutFixes = result'.map ModuleResult.withoutFixes ∧
          result.map ModuleResult.source = result'.map ModuleResult.source) ∧
      (o.fixHints = false → ∀ actions r, Yields (run ⟨o, .empty⟩ actions).2 text (.ok r) →
        r.withoutFixes = r) := by
  refine ⟨fun hkeys result result' h h' => ?_, fun hoff actions r h =>
    withoutFixes_of_yields_run hoff actions h⟩
  have heq := withoutFixes_eq_of_yields hjobs hcache hkeys h h'
  have hsource (result : Except ReadError ModuleResult) :
      result.map ModuleResult.source =
        (result.map ModuleResult.withoutFixes).map ModuleResult.source := by
    cases result with
    | error e => rfl
    | ok r => exact congrArg Except.ok (source_withoutFixes r).symm
  exact ⟨heq, by rw [hsource, heq, ← hsource]⟩

/-- A value object that is not partial, twice. -/
def sealedTwice : Bytes :=
  utf8 "(module (class :name A :base value-object :attrs [value-object]) " ++
    utf8 "(class :name A :base value-object :attrs [value-object]))"

def hinted : Options := { diagJson := true, trace := true }

def unhinted : Options := { fixHints := false }

theorem hints_add_fixes_sealedTwice :
    (compileText ⟨hinted, .empty⟩ sealedTwice).1 ≠ (compileText ⟨unhinted, .empty⟩ sealedTwice).1 ∧
      (compileText ⟨hinted, .empty⟩ sealedTwice).1.map ModuleResult.withoutFixes =
        (compileText ⟨unhinted, .empty⟩ sealedTwice).1.map ModuleResult.withoutFixes ∧
      ∀ r, Yields (run ⟨unhinted, .empty⟩ [.compile sealedTwice]).2 sealedTwice (.ok r) →
        r.withoutFixes = r := by
  have hkeys : KeysCarryOver hinted.jobs hinted.fixHints unhinted.fixHints
        (submittedForms false sealedTwice) ∧
      KeysCarryOver hinted.jobs unhinted.fixHints hinted.fixHints
        (submittedForms false sealedTwice) := by
    unfold KeysCarryOver
    decide +kernel
  refine ⟨by decide +kernel, ?_, ?_⟩
  · exact ((@hints_add_fixes_only hinted unhinted rfl rfl sealedTwice).1 (fun _ => hkeys) _ _
      (yields_compileText _ _) (yields_compileText _ _)).1
  · exact (@hints_add_fixes_only unhinted hinted rfl rfl sealedTwice).2 rfl _

/-- Two enumerations that differ in name and in an option that is not read. Their forms have one key
with fix hints, and two keys without. -/
def collidingTags : Bytes :=
  utf8 "(module\n(enumeration :name A :partial true :tag 1786646209608219381)\n" ++
    utf8 "(enumeration :name B :partial true :tag -1971738174580507374))"

/-- With fix hints the second enumeration is taken for the first, and is a duplicate of it. -/
theorem hints_change_collidingTags :
    (compileText ⟨{ fixHints := true }, .empty⟩ collidingTags).1.map ModuleResult.withoutFixes ≠
      (compileText ⟨{ fixHints := false }, .empty⟩ collidingTags).1.map
        ModuleResult.withoutFixes := by
  decide +kernel

end Compiler

end Equate
