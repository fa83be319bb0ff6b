import Equate.Proofs.Compile.Origin
import Equate.Proofs.Compile.Tally
/-!
# The statistics of a compiler

Each action keeps the tallies of the cache for the forms that were submitted since the cache was
cleared last (`tallies_of_becomes`), so after any actions the statistics account for every one of
them: `statistics_of_reaches`.
-/

namespace Equate

/-- The forms that have been submitted since the cache was cleared, once the action is done. -/
def CompilerAction.formsSince (fixHints : Bool) (seen : List Node) : CompilerAction → List Node
  | .compile text => seen ++ submittedForms fixHints text
  | .clear => []

/-- The forms that actions have submitted since the last time they cleared the cache. -/
def formsSinceClear (fixHints : Bool) (actions : List CompilerAction) : List Node :=
  actions.foldl (CompilerAction.formsSince fixHints) []

theorem formsSinceClear_concat (fixHints : Bool) (actions : List CompilerAction)
    (action : CompilerAction) :
    formsSinceClear fixHints (actions ++ [action]) =
      action.formsSince fixHints (formsSinceClear fixHints actions) := by
  unfold formsSinceClear
  rw [List.foldl_append]
  rfl

/-! ## Without a cache -/

theorem cache_compileSerially_cache_off {o : Options} (h : o.cache = false) (c : Cache Output)
    (forms : List Node) : (compileSerially o c forms).2.1 = c := by
  induction forms with
  | nil => rfl
  | cons form forms ih =>
    rw [compileSerially, compileForm_cache_off h]
    exact ih

theorem Pool.Move.cache_off {o : Options} {forms : List Node} {p q : Pool} {w : Nat}
    {s : WorkerState} (h : o.cache = false) (hmove : Move o forms p w s q) :
    q.cache = p.cache := by
  cases hmove <;> simp [findOutput, storeOutput, setWorker, h]

theorem Pool.cache_run_cache_off {o : Options} {forms : List Node} {p : Pool} {n : Nat}
    (h : o.cache = false) (ha : p.Accounted forms n) (schedule : List Nat) :
    (p.run o forms schedule).cache = p.cache := by
  refine (run_induction (motive := fun q => q.Accounted forms n ∧ q.cache = p.cache)
    (fun q w hq => ⟨hq.1.step w, ?_⟩) schedule ⟨ha, rfl⟩).2
  rcases hq.1.step_cases (o := o) w with ⟨heq, -⟩ | ⟨s, -, hmove⟩
  · rw [heq, hq.2]
  · rw [hmove.cache_off h, hq.2]

namespace Compiler

variable {start c c' : Compiler} {action : CompilerAction} {actions : List CompilerAction}

/-! ## Tallies -/

/-- Each action keeps the tallies of the cache. -/
theorem tallies_of_becomes (hcache : c.options.cache = true) {seen : List Node}
    (htallies : c.cache.Tallies c.options.fixHints seen) (h : c.Becomes action c') :
    c'.cache.Tallies c.options.fixHints (action.formsSince c.options.fixHints seen) := by
  cases h with
  | @unread text e hread =>
    have hnone : submittedForms c.options.fixHints text = [] := by
      unfold submittedForms
      rw [hread]
    rw [CompilerAction.formsSince, hnone, List.append_nil]
    exact htallies
  | serial hread hworkers =>
    rw [CompilerAction.formsSince, submittedForms_of_read hread]
    exact (htallies.compileSerially hcache _).1
  | @pooled text m hread hworkers schedule hfinished =>
    rw [CompilerAction.formsSince, submittedForms_of_read hread]
    have hstart := Pool.accounted_start (workers c.options (c.formsOf m).length) c.cache
      (c.formsOf m)
    have htallied := (Pool.tallied_start htallies _ _).run hstart hcache schedule
    exact htallied.tallies (hstart.run schedule) hfinished (workers_pos _)
  | clear => exact .empty _

theorem tallies_of_reaches (hcache : start.options.cache = true)
    (hempty : start.cache = .empty) (h : Reaches start actions c) :
    c.cache.Tallies start.options.fixHints (formsSinceClear start.options.fixHints actions) := by
  induction h with
  | nil =>
    rw [hempty]
    exact .empty _
  | concat h hstep ih =>
    rw [← h.options] at hcache ih ⊢
    rw [formsSinceClear_concat]
    exact tallies_of_becomes hcache ih hstep

/-- A single worker misses once for each key. -/
theorem misses_of_becomes (hcache : c.options.cache = true) (hjobs : c.options.jobs ≤ 1)
    {seen : List Node} (htallies : c.cache.Tallies c.options.fixHints seen)
    (heven : c.cache.misses = c.cache.size) (h : c.Becomes action c') :
    c'.cache.misses = c'.cache.size := by
  cases h with
  | unread hread => exact heven
  | serial hread hworkers => exact (htallies.compileSerially hcache _).2 heven
  | pooled hread hworkers =>
    -- there are no more workers than jobs
    unfold workers at hworkers
    omega
  | clear => rfl

theorem misses_of_reaches (hcache : start.options.cache = true) (hjobs : start.options.jobs ≤ 1)
    (hempty : start.cache = .empty) (h : Reaches start actions c) :
    c.cache.misses = c.cache.size := by
  induction h with
  | nil =>
    rw [hempty]
    rfl
  | concat h hstep ih =>
    have htallies := tallies_of_reaches hcache hempty h
    rw [← h.options] at hcache hjobs htallies
    exact misses_of_becomes hcache hjobs htallies ih hstep

theorem cache_of_becomes_cache_off (hcache : c.options.cache = false)
    (hempty : c.cache = .empty) (h : c.Becomes action c') : c'.cache = .empty := by
  cases h with
  | unread hread => exact hempty
  | serial hread hworkers => exact (cache_compileSerially_cache_off hcache _ _).trans hempty
  | pooled hread hworkers schedule hfinished =>
    exact (Pool.cache_run_cache_off hcache (Pool.accounted_start _ _ _) schedule).trans hempty
  | clear => rfl

theorem cache_of_reaches_cache_off (hcache : start.options.cache = false)
    (hempty : start.cache = .empty) (h : Reaches start actions c) : c.cache = .empty := by
  induction h with
  | nil => exact hempty
  | concat h hstep ih =>
    rw [← h.options] at hcache
    exact cache_of_becomes_cache_off hcache ih hstep

/-! ## Texts that submit nothing -/

/-- A text that cannot be read, or is no module, leaves the cache as it was. -/
theorem cache_of_becomes_of_no_forms {text : Bytes}
    (hnone : submittedForms c.options.fixHints text = []) (h : c.Becomes (.compile text) c') :
    c'.cache = c.cache := by
  cases h with
  | unread hread => rfl
  | @serial _ m hread hworkers =>
    rw [submittedForms_of_read hread] at hnone
    show (compileSerially c.options c.cache (c.formsOf m)).2.1 = _
    rw [hnone]
    rfl
  | pooled hread hworkers =>
    rw [submittedForms_of_read hread] at hnone
    rw [hnone, workers, List.length_nil] at hworkers
    omega

theorem submittedForms_of_no_module {fixHints : Bool} {text : Bytes}
    (h : ∀ m, Node.read text = .ok m → m.head ≠ utf8 "module") :
    submittedForms fixHints text = [] := by
  unfold submittedForms
  cases hread : Node.read text with
  | error e => rfl
  | ok m =>
    show (moduleDeclarations { fixHints } m).2 = []
    unfold moduleDeclarations
    rw [if_neg (h m hread)]

/-- After any actions, and under any schedules of their workers, the statistics account for the
forms submitted since the cache was cleared last: each was searched for once, each key that they
have is there once, and was missed at least once. A single worker misses each key only when it first
comes up, so it finds every form whose key was there before, in the module or in one before it. What
submits no forms leaves the cache alone, and without a cache nothing is counted. -/
theorem statistics_of_reaches {o : Options} (h : Reaches ⟨o, .empty⟩ actions c) :
    (o.cache = true →
      let seen := formsSinceClear o.fixHints actions
      c.cache.hits + c.cache.misses = seen.length ∧
      c.cache.size = (seen.map (Output.key o.fixHints)).toFinset.card ∧
      c.cache.size ≤ c.cache.misses ∧
      (o.jobs ≤ 1 → c.cache.misses = c.cache.size ∧ ∀ before form,
        ((findOutput o (compileSerially o c.cache before).2.1 form).1.isSome = true ↔
          Output.key o.fixHints form ∈ (seen ++ before).map (Output.key o.fixHints)))) ∧
    (o.cache = false → c.cache.hits = 0 ∧ c.cache.misses = 0 ∧ c.cache.size = 0) ∧
    ∀ text c', c.Becomes (.compile text) c' →
      (∀ m, Node.read text = .ok m → m.head ≠ utf8 "module") → c'.cache = c.cache := by
  refine ⟨fun hcache => ?_, fun hcache => ?_, fun text c' hstep hmodule => ?_⟩
  · have htallies := tallies_of_reaches hcache rfl h
    refine ⟨htallies.searches, htallies.size_eq, htallies.size_le, fun hjobs => ⟨?_, ?_⟩⟩
    · exact misses_of_reaches hcache hjobs rfl h
    · intro before form
      exact (htallies.compileSerially hcache before).1.isSome_findOutput hcache form
  · rw [cache_of_reaches_cache_off hcache rfl h]
    exact ⟨rfl, rfl, rfl⟩
  · exact cache_of_becomes_of_no_forms (submittedForms_of_no_module hmodule) hstep

/-- Two enumerations that are compiled, forgotten and compiled twice again, with texts between them
that cannot be read or are no module. -/
def countedActions : List CompilerAction :=
  let text := utf8 "(module (enumeration :name E) (enumeration :name F))"
  [.compile text, .clear, .compile text, .compile (utf8 ")"), .compile (utf8 "(class)"),
    .compile text]

theorem statistics_countedActions :
    Reaches ⟨{ jobs := 2 }, .empty⟩ countedActions
        (run ⟨{ jobs := 2 }, .empty⟩ countedActions).2 ∧
      (∀ c, Reaches ⟨{ jobs := 2 }, .empty⟩ countedActions c →
        c.cache.hits + c.cache.misses = 4 ∧ c.cache.size = 2 ∧ 2 ≤ c.cache.misses) ∧
      ∀ c, Reaches ⟨{ jobs := 1 }, .empty⟩ countedActions c →
        c.cache.hits = 2 ∧ c.cache.misses = 2 := by
  have hforms : (formsSinceClear true countedActions).length = 4 := by decide +kernel
  have hkeys : ((formsSinceClear true countedActions).map (Output.key true)).toFinset.card = 2 := by
    decide +kernel
  refine ⟨reaches_run _ _, fun c h => ?_, fun c h => ?_⟩
  · obtain ⟨hsearches, hsize, hmisses, -⟩ := (statistics_of_reaches h).1 rfl
    rw [hforms] at hsearches
    rw [hkeys] at hsize
    exact ⟨hsearches, hsize, hsize ▸ hmisses⟩
  · obtain ⟨hsearches, hsize, -, hserial⟩ := (statistics_of_reaches h).1 rfl
    rw [hforms] at hsearches
    rw [hkeys] at hsize
    have hmisses := (hserial (Nat.le_refl 1)).1
    omega

end Compiler

end Equate
