import Equate.Compile.Module
import Equate.Proofs.Compile.Form
/-!
# Sessions with a cache and without one

A session is a run of one compiler from its empty cache. The cache outlives each module in it, but
what it remembers are outputs of forms, and these are copied before the duplicates of a module are
marked. So a session answers like new compilers that have no cache, one for each action:
`step_of_remembers` says it of one action, `run_of_remembers` of all.
-/

namespace Equate

/-- The result of a compilation, without what was logged. -/
def CompilerAnswer.result? : CompilerAnswer → Option (Except ReadError ModuleResult)
  | .compiled result _ => some result
  | .cleared => none

/-- The declaration forms of a text. There are none if it cannot be read. -/
def submittedForms (fixHints : Bool) (text : Bytes) : List Node :=
  match Node.read text with
  | .error _ => []
  | .ok m => (moduleDeclarations { fixHints } m).2

/-- The forms that an action hands to the compiler. -/
def CompilerAction.forms (fixHints : Bool) : CompilerAction → List Node
  | .compile text => submittedForms fixHints text
  | .clear => []

/-- The result of a text whose forms are compiled each by itself. -/
def plainResult (fixHints : Bool) (text : Bytes) : Except ReadError ModuleResult :=
  (Node.read text).map fun m =>
    let (diagnostics, forms) := moduleDeclarations { fixHints } m
    .ofOutputs fixHints diagnostics forms (forms.map (Output.ofForm fixHints))

namespace Compiler

variable {c : Compiler} {forms : List Node}

/-- A single worker compiles the forms one after the other. -/
theorem compileForms_of_jobs_le (h : c.options.jobs ≤ 1) (fs : List Node) :
    c.compileForms fs = compileSerially c.options c.cache fs := by
  have hworkers : workers c.options fs.length ≤ 1 := by
    unfold workers
    omega
  unfold compileForms
  exact if_pos hworkers

theorem step_options (c : Compiler) (action : CompilerAction) :
    (c.step action).2.options = c.options := by
  cases action with
  | compile text =>
    simp only [step, compileText]
    cases Node.read text <;> rfl
  | clear => rfl

/-- The result of a text depends on the cache through the outputs of its forms only. -/
theorem compileText_fst (c : Compiler) (text : Bytes)
    (h : (c.compileForms (submittedForms c.options.fixHints text)).1 =
      (submittedForms c.options.fixHints text).map (Output.ofForm c.options.fixHints)) :
    (c.compileText text).1 = plainResult c.options.fixHints text := by
  unfold compileText plainResult
  unfold submittedForms at h
  cases hread : Node.read text with
  | error e => rfl
  | ok m =>
    rw [hread] at h
    dsimp only at h
    simp only [compile, h]
    rfl

theorem compileText_cache (c : Compiler) (text : Bytes) :
    (c.compileText text).2.1.cache = c.cache ∨
      (c.compileText text).2.1.cache =
        (c.compileForms (submittedForms c.options.fixHints text)).2.1 := by
  unfold compileText submittedForms
  cases Node.read text with
  | error e => exact .inl rfl
  | ok m => exact .inr rfl

/-- Without a cache every compilation starts from the text alone. -/
theorem step_cache_off (hjobs : c.options.jobs ≤ 1) (hcache : c.options.cache = false)
    (text : Bytes) :
    (c.step (.compile text)).1.result? = some (plainResult c.options.fixHints text) := by
  have h : (c.compileText text).1 = plainResult c.options.fixHints text := by
    refine compileText_fst c text ?_
    rw [compileForms_of_jobs_le hjobs, compileSerially_cache_off hcache]
  show some (c.compileText text).1 = _
  rw [h]

/-- One action on a cache of outputs gives what the text has by itself, and leaves such a cache
behind. -/
theorem step_of_remembers (hjobs : c.options.jobs ≤ 1)
    (hkeys : KeysDetermineOutputs c.options.fixHints forms)
    (hcache : c.cache.Remembers c.options.fixHints forms) {action : CompilerAction}
    (hforms : ∀ f ∈ action.forms c.options.fixHints, f ∈ forms) :
    (c.step action).1.result? =
        (step ⟨{ c.options with cache := false }, .empty⟩ action).1.result? ∧
      (c.step action).2.cache.Remembers c.options.fixHints forms := by
  cases action with
  | clear => exact ⟨rfl, Cache.remembers_empty⟩
  | compile text =>
    obtain ⟨houts, hafter⟩ := compileSerially_of_remembers hkeys hforms hcache
    simp only [CompilerAction.forms] at houts hafter
    rw [← compileForms_of_jobs_le hjobs] at houts hafter
    rw [step_cache_off (c := ⟨{ c.options with cache := false }, .empty⟩) hjobs rfl]
    constructor
    · show some (c.compileText text).1 = _
      rw [compileText_fst c text houts]
    · show (c.compileText text).2.1.cache.Remembers _ _
      rcases compileText_cache c text with h | h
      · rw [h]
        exact hcache
      · rw [h]
        exact hafter

theorem run_of_remembers (hjobs : c.options.jobs ≤ 1)
    (hkeys : KeysDetermineOutputs c.options.fixHints forms)
    (hcache : c.cache.Remembers c.options.fixHints forms) {actions : List CompilerAction}
    (hforms : ∀ action ∈ actions, ∀ f ∈ action.forms c.options.fixHints, f ∈ forms) :
    (c.run actions).1.map CompilerAnswer.result? =
        actions.map (fun action =>
          (step ⟨{ c.options with cache := false }, .empty⟩ action).1.result?) ∧
      (c.run actions).2.cache.Remembers c.options.fixHints forms := by
  induction actions generalizing c with
  | nil => exact ⟨rfl, hcache⟩
  | cons action actions ih =>
    obtain ⟨hresult, hafter⟩ :=
      step_of_remembers hjobs hkeys hcache (hforms action (by simp))
    have hoptions := c.step_options action
    rw [← hoptions] at hjobs hkeys hafter
    -- an action keeps the options, so the rest of the session starts like the whole
    obtain ⟨hresults, hafter⟩ := ih hjobs hkeys hafter fun action' h => by
      rw [hoptions]
      exact hforms action' (by simp [h])
    rw [hoptions] at hresults hafter
    refine ⟨?_, hafter⟩
    rw [List.map_cons, ← hresult, ← hresults]
    rfl

/-- Whether there is a cache makes no difference to the results of a session, if forms of the
session that share a key share their output. What is remembered in the end are outputs of forms
by themselves, before any was turned into a duplicate. -/
theorem run_results_eq_fresh {o : Options} (hjobs : o.jobs ≤ 1) (actions : List CompilerAction)
    (hkeys : KeysDetermineOutputs o.fixHints (actions.flatMap (·.forms o.fixHints))) :
    (run ⟨o, .empty⟩ actions).1.map CompilerAnswer.result? =
        actions.map (fun action =>
          (step ⟨{ o with cache := false }, .empty⟩ action).1.result?) ∧
      (run ⟨o, .empty⟩ actions).2.cache.Remembers o.fixHints
        (actions.flatMap (·.forms o.fixHints)) := by
  refine run_of_remembers (c := ⟨o, .empty⟩) hjobs hkeys Cache.remembers_empty ?_
  intro action haction f hf
  exact List.mem_flatMap.2 ⟨action, haction, hf⟩

/-- A module with two enumerations of one name, before and after a text that cannot be read, and
once more after clearing. -/
def sessionActions : List CompilerAction :=
  let text := utf8 "(module (enumeration :name E) (enumeration :name E))"
  [.compile text, .compile (utf8 ")"), .compile text, .clear, .compile text]

theorem run_sessionActions :
    KeysDetermineOutputs true (sessionActions.flatMap (·.forms true)) ∧
      (run ⟨{ cache := true, jobs := 1 }, .empty⟩ sessionActions).1.map CompilerAnswer.result? =
        sessionActions.map fun action =>
          (step ⟨{ cache := false, jobs := 1 }, .empty⟩ action).1.result? := by
  have hkeys : KeysDetermineOutputs true (sessionActions.flatMap (·.forms true)) := by
    unfold KeysDetermineOutputs
    decide +kernel
  have h := run_results_eq_fresh (o := { cache := true, jobs := 1 }) (Nat.le_refl 1)
    sessionActions hkeys
  exact ⟨hkeys, h.1⟩

end Compiler

end Equate
