import Equate.Proofs.Compile.Pool
import Equate.Proofs.Compile.Session
/-!
# Compiling under any schedule

A schedule that gives each worker of a pool enough steps stops all of them, and taking turns is
such a schedule: `isFinished_of_count`, `compileInPool_eq`. Whatever the schedule, the result of a
module is that of a single worker once all have stopped: `result_eq_serial_of_isFinished`.
-/

namespace Equate

variable {o : Options} {forms : List Node}

namespace Pool

variable {p q : Pool} {n w : Nat} {s : WorkerState}

/-! ## Schedules that stop all workers -/

/-- The steps that worker `w` can still make. -/
def stepsLeft (forms : List Node) (p : Pool) (w : Nat) : Nat :=
  (p.workers[w]?.map (WorkerState.stepsLeft (forms.length - p.next))).getD 0

theorem Move.progress (hmove : Move o forms p w s q) :
    p.next ≤ q.next ∧ ∃ s', q.workers = p.workers.set w s' ∧
      s'.stepsLeft (forms.length - q.next) < s.stepsLeft (forms.length - p.next) := by
  cases hmove <;> refine ⟨by simp [setWorker], _, rfl, ?_⟩ <;>
    simp only [setWorker, WorkerState.stepsLeft] <;> omega

theorem stepsLeft_of_stopped (forms : List Node)
    (h : ∀ s, p.workers[w]? = some s → s = .stopped) : p.stepsLeft forms w = 0 := by
  unfold stepsLeft
  cases hs : p.workers[w]? with
  | none => rfl
  | some s =>
    rw [h s hs]
    rfl

/-- A step uses up one of the worker's own steps, and gives none to any worker. -/
theorem Accounted.stepsLeft_step (h : p.Accounted forms n) (v w : Nat) :
    (p.step o forms v).stepsLeft forms w ≤ p.stepsLeft forms w - [v].count w := by
  rcases h.step_cases (o := o) v with ⟨heq, hstopped⟩ | ⟨s, hs, hmove⟩
  · rw [heq]
    by_cases hvw : v = w
    · rw [hvw] at hstopped
      rw [stepsLeft_of_stopped forms hstopped]
      exact Nat.zero_le _
    · simp [hvw]
  · obtain ⟨hnext, s', hworkers, hless⟩ := hmove.progress
    unfold stepsLeft
    rw [hworkers]
    by_cases hvw : v = w
    · subst hvw
      rw [List.getElem?_set_self (List.getElem?_eq_some_iff.1 hs).1, hs]
      simp only [Option.map_some, Option.getD_some, List.count_singleton_self]
      omega
    · rw [List.getElem?_set_ne hvw]
      cases p.workers[w]? with
      | none => simp
      | some t => simpa [hvw] using t.stepsLeft_mono (Nat.sub_le_sub_left hnext _)

theorem Accounted.stepsLeft_run (h : p.Accounted forms n) (schedule : List Nat) (w : Nat) :
    (p.run o forms schedule).stepsLeft forms w ≤ p.stepsLeft forms w - schedule.count w := by
  induction schedule generalizing p with
  | nil => exact Nat.le_refl _
  | cons v schedule ih =>
    have hstep := h.stepsLeft_step (o := o) v w
    have hrun := ih (h.step (o := o) v)
    have hcount : (v :: schedule).count w = [v].count w + schedule.count w := by
      rw [← List.count_append, List.singleton_append]
    have hcons : p.run o forms (v :: schedule) = (p.step o forms v).run o forms schedule := rfl
    rw [hcons, hcount]
    omega

theorem isFinished_of_stepsLeft (forms : List Node)
    (h : ∀ w < p.workers.length, p.stepsLeft forms w = 0) :
    p.isFinished = true := by
  refine List.all_eq_true.2 fun s hs => ?_
  obtain ⟨w, hw⟩ := List.mem_iff_getElem?.1 hs
  have hzero := h w (List.getElem?_eq_some_iff.1 hw).1
  cases s <;> simp_all [stepsLeft, WorkerState.stepsLeft]

/-- Five steps for each form and one to stop are enough for every worker. -/
theorem isFinished_of_count {schedule : List Nat} (cache : Cache Output)
    (h : ∀ w < n, 5 * forms.length + 1 ≤ schedule.count w) :
    (Pool.run o forms (Pool.start n cache forms) schedule).isFinished = true := by
  have hstart := accounted_start n cache forms
  refine isFinished_of_stepsLeft forms fun w hw => ?_
  rw [(hstart.run schedule).workers] at hw
  have hrun := hstart.stepsLeft_run (o := o) schedule w
  have hless : (Pool.start n cache forms).stepsLeft forms w ≤ 5 * forms.length + 1 := by
    simp [stepsLeft, Pool.start, hw, WorkerState.stepsLeft]
  have hcount := h w hw
  omega

/-- Rounds are a schedule in which every worker takes its turn in each of them, unless all have
stopped before. -/
theorem Accounted.exists_schedule (h : p.Accounted forms n) (rounds : Nat) :
    ∃ schedule, Pool.runRounds o forms rounds p = p.run o forms schedule ∧
      ((p.run o forms schedule).isFinished = true ∨ ∀ w < n, rounds ≤ schedule.count w) := by
  induction rounds generalizing p with
  | zero => exact ⟨[], rfl, .inr fun w _ => Nat.zero_le _⟩
  | succ rounds ih =>
    rw [runRounds]
    split
    · rename_i hfinished
      exact ⟨[], rfl, .inl hfinished⟩
    · obtain ⟨schedule, heq, hcount⟩ := ih (h.run (List.range p.workers.length))
      have hrun : p.run o forms (List.range p.workers.length ++ schedule) =
          (p.run o forms (List.range p.workers.length)).run o forms schedule :=
        List.foldl_append
      refine ⟨List.range p.workers.length ++ schedule, hrun ▸ heq, ?_⟩
      rw [hrun]
      refine hcount.imp_right fun hcount w hw => ?_
      have hturn : 0 < (List.range p.workers.length).count w :=
        List.count_pos_iff.2 (List.mem_range.2 (h.workers ▸ hw))
      have hcount := hcount w hw
      rw [List.count_append]
      omega

/-- Workers that take turns have all stopped at the end. -/
theorem compileInPool_eq (o : Options) (n : Nat) (cache : Cache Output) (forms : List Node) :
    ∃ schedule, (Pool.run o forms (.start n cache forms) schedule).isFinished = true ∧
      compileInPool o n cache forms =
        ((Pool.run o forms (.start n cache forms) schedule).outputs.filterMap id,
          (Pool.run o forms (.start n cache forms) schedule).cache,
          (Pool.run o forms (.start n cache forms) schedule).events) := by
  obtain ⟨schedule, heq, hturns⟩ :=
    (accounted_start n cache forms).exists_schedule (o := o) (5 * forms.length + 1)
  refine ⟨schedule, hturns.elim id (isFinished_of_count cache), ?_⟩
  rw [← heq]
  rfl

end Pool

/-! ## Modules -/

namespace Compiler

/-- The declaration forms of a module. -/
def formsOf (c : Compiler) (m : Node) : List Node :=
  (moduleDeclarations { fixHints := c.options.fixHints } m).2

/-- The pool that compiles a module, after the steps of a schedule. -/
def poolAfter (c : Compiler) (m : Node) (schedule : List Nat) : Pool :=
  Pool.run c.options (c.formsOf m)
    (.start (workers c.options (c.formsOf m).length) c.cache (c.formsOf m)) schedule

/-- The result of a module whose outputs are those of a pool. -/
def poolResult (c : Compiler) (m : Node) (p : Pool) : ModuleResult :=
  let (diagnostics, forms) := moduleDeclarations { fixHints := c.options.fixHints } m
  .ofOutputs c.options.fixHints diagnostics forms (p.outputs.filterMap id)

/-- The compiler with a single worker. -/
def serial (c : Compiler) : Compiler := { c with options := { c.options with jobs := 1 } }

theorem workers_pos (o : Options) {forms : List Node} (h : forms ≠ []) :
    0 < workers o forms.length := by
  have hlength : 0 < forms.length := List.length_pos_iff.2 h
  unfold workers
  omega

theorem compile_fst (c : Compiler) (m : Node) :
    (c.compile m).1 = .ofOutputs c.options.fixHints
      (moduleDeclarations { fixHints := c.options.fixHints } m).1 (c.formsOf m)
      (c.compileForms (c.formsOf m)).1 := rfl

variable {c : Compiler} {m : Node}

/-- A single worker gives each form what it gets from the cache of the compiler. -/
theorem serial_compile_fst
    (hkeys : c.options.cache = true → KeysDetermineOutputs c.options.fixHints (c.formsOf m)) :
    (c.serial.compile m).1 = .ofOutputs c.options.fixHints
      (moduleDeclarations { fixHints := c.options.fixHints } m).1 (c.formsOf m)
      ((c.formsOf m).map (c.cache.outputFor c.options)) := by
  have houtputs : (c.serial.compileForms (c.formsOf m)).1 =
      (c.formsOf m).map (c.cache.outputFor c.options) := by
    rw [compileForms_of_jobs_le (Nat.le_refl 1)]
    exact compileSerially_of_extends (o := c.serial.options) (.refl _ _ _) hkeys fun _ h => h
  rw [← houtputs]
  rfl

/-- Compiling on workers that have all stopped gives the result of a single worker, if forms that
share a key share their output; without a cache no such condition is needed. By then each form was
handed out once, and its place holds the output that the form gets from the cache of the compiler.
Taking turns is a schedule, so this is also the result of the compiler itself. -/
theorem result_eq_serial_of_isFinished (c : Compiler) (m : Node)
    (hkeys : c.options.cache = true → KeysDetermineOutputs c.options.fixHints (c.formsOf m)) :
    (∀ schedule, (c.poolAfter m schedule).isFinished = true →
      (c.poolAfter m schedule).takings.map Prod.snd = List.range (c.formsOf m).length ∧
        (∀ taking ∈ (c.poolAfter m schedule).takings,
          taking.1 < workers c.options (c.formsOf m).length) ∧
        (c.poolAfter m schedule).outputs =
          (c.formsOf m).map (fun form => some (c.cache.outputFor c.options form)) ∧
        c.poolResult m (c.poolAfter m schedule) = (c.serial.compile m).1) ∧
      (c.compile m).1 = (c.serial.compile m).1 := by
  have hserial := serial_compile_fst hkeys
  have hfinished (schedule : List Nat) (h : (c.poolAfter m schedule).isFinished = true) :
      (c.poolAfter m schedule).takings.map Prod.snd = List.range (c.formsOf m).length ∧
        (c.poolAfter m schedule).outputs =
          (c.formsOf m).map (fun form => some (c.cache.outputFor c.options form)) :=
    have hstart := Pool.accounted_start (workers c.options (c.formsOf m).length) c.cache
      (c.formsOf m)
    Pool.outputs_of_isFinished (hstart.run schedule)
      ((Pool.faithful_start c.options _ c.cache _).run hstart hkeys schedule) h (workers_pos _)
  have houtputs (schedule : List Nat) (h : (c.poolAfter m schedule).isFinished = true) :
      (c.poolAfter m schedule).outputs.filterMap id =
        (c.formsOf m).map (c.cache.outputFor c.options) := by
    rw [(hfinished schedule h).2, List.filterMap_map]
    exact congrFun List.filterMap_eq_map _
  refine ⟨fun schedule h => ⟨(hfinished schedule h).1, ?_, (hfinished schedule h).2, ?_⟩, ?_⟩
  · exact ((Pool.accounted_start _ c.cache (c.formsOf m)).run schedule).takers
  · rw [hserial, ← houtputs schedule h]
    rfl
  · by_cases hone : workers c.options (c.formsOf m).length ≤ 1
    · rw [hserial, compile_fst, compileForms, if_pos hone,
        compileSerially_of_extends (.refl _ _ _) hkeys fun _ h => h]
    · obtain ⟨schedule, h, heq⟩ := Pool.compileInPool_eq c.options
        (workers c.options (c.formsOf m).length) c.cache (c.formsOf m)
      rw [hserial, compile_fst, compileForms, if_neg hone, heq, ← houtputs schedule h]
      rfl

/-- A module that holds one and the same form twice. -/
def twinModule : Node :=
  let mark : Mark := ⟨0, none⟩
  let form : Node := .list mark
    [.symbol mark (utf8 "enumeration"), .keyword mark (utf8 "name"), .symbol mark (utf8 "E")]
  .list mark [.symbol mark (utf8 "module"), form, form]

def twoWorkers : Compiler := { options := { jobs := 2 } }

/-- Two workers that move in turn. On twins both of them miss the key, and both store it. -/
def turns : List Nat := (List.replicate 6 [0, 1]).flatten

theorem result_twinModule :
    (twoWorkers.poolAfter twinModule turns).isFinished = true ∧
      (twoWorkers.poolAfter twinModule turns).takings = [(0, 0), (1, 1)] ∧
      (twoWorkers.poolAfter twinModule turns).cache.misses = 2 ∧
      twoWorkers.poolResult twinModule (twoWorkers.poolAfter twinModule turns) =
        (twoWorkers.serial.compile twinModule).1 := by
  have hfinished : (twoWorkers.poolAfter twinModule turns).isFinished = true := by decide +kernel
  have hkeys : KeysDetermineOutputs true (twoWorkers.formsOf twinModule) := by
    unfold KeysDetermineOutputs
    decide +kernel
  obtain ⟨-, -, -, hresult⟩ :=
    (result_eq_serial_of_isFinished twoWorkers twinModule fun _ => hkeys).1 turns hfinished
  exact ⟨hfinished, by decide +kernel, by decide +kernel, hresult⟩

end Compiler

end Equate
