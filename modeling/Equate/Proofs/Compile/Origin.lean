import Equate.Proofs.Compile.Runs
/-!
# Where outputs come from

Whatever a cache mixes up, it remembers outputs of forms only. So what holds of the output of every
form that a compiler was given holds of all that it remembers (`Compiler.all_of_reaches`) and of the
outputs that its results are made of, under any schedule (`Compiler.exists_outputs_of_returns`).
-/

namespace Equate

variable {P : Output → Prop} {o : Options} {forms : List Node}

/-! ## Caches -/

/-- Whether all remembered outputs are of one kind. -/
def Cache.All (P : Output → Prop) (c : Cache Output) : Prop :=
  ∀ key out, c.value? key = some out → P out

namespace Cache

variable {c : Cache Output}

theorem all_empty : (empty : Cache Output).All P := by
  intro key out h
  rw [value?_empty] at h
  cases h

theorem All.of_findOutput (h : c.All P) {form : Node} {out : Output}
    (hfind : (findOutput o c form).1 = some out) : P out := by
  rw [findOutput_fst] at hfind
  split at hfind
  · exact h _ _ hfind
  · cases hfind

theorem All.findOutput (h : c.All P) (form : Node) : (findOutput o c form).2.All P :=
  fun key out hout => h key out (value?_findOutput o c form key ▸ hout)

theorem All.storeOutput (h : c.All P) (form : Node) {out : Output} (hout : P out) :
    (storeOutput o c form out).All P := by
  unfold Equate.storeOutput
  split
  · intro key out' hkey
    rw [value?_store] at hkey
    split at hkey
    · rwa [← Option.some.inj hkey]
    · exact h key out' hkey
  · exact h

end Cache

/-! ## A single worker -/

theorem all_compileForm {form : Node} (hP : P (Output.ofForm o.fixHints form)) {c : Cache Output}
    (h : c.All P) :
    P (compileForm o c form).1 ∧ (compileForm o c form).2.1.All P := by
  cases hfind : (findOutput o c form).1 with
  | some out =>
    rw [compileForm_of_found hfind]
    exact ⟨h.of_findOutput hfind, h.findOutput form⟩
  | none =>
    rw [compileForm_of_missed hfind]
    exact ⟨hP, (h.findOutput form).storeOutput form hP⟩

theorem all_compileSerially (hP : ∀ form ∈ forms, P (Output.ofForm o.fixHints form))
    {c : Cache Output} (h : c.All P) :
    (∀ out ∈ (compileSerially o c forms).1, P out) ∧ (compileSerially o c forms).2.1.All P := by
  induction forms generalizing c with
  | nil => exact ⟨nofun, h⟩
  | cons form forms ih =>
    rw [List.forall_mem_cons] at hP
    obtain ⟨hout, hcache⟩ := all_compileForm hP.1 h
    obtain ⟨houts, hcache⟩ := ih hP.2 hcache
    exact ⟨List.forall_mem_cons.2 ⟨hout, houts⟩, hcache⟩

/-! ## Pools -/

/-- The output that a worker carries. -/
def WorkerState.output? : WorkerState → Option Output
  | .compiled _ out | .ready _ out => some out
  | .idle | .taken _ | .missed _ | .stopped => none

namespace Pool

variable {p q : Pool} {n w : Nat} {s : WorkerState}

/-- Whether all outputs of a pool are of one kind, wherever they are. -/
structure All (P : Output → Prop) (p : Pool) : Prop where
  cache : p.cache.All P
  workers : ∀ s ∈ p.workers, ∀ out, s.output? = some out → P out
  outputs : ∀ out, some out ∈ p.outputs → P out

theorem all_start {cache : Cache Output} (h : cache.All P) (n : Nat) (forms : List Node) :
    (Pool.start n cache forms).All P where
  cache := h
  workers s hs out hout := by
    rw [List.eq_of_mem_replicate hs] at hout
    cases hout
  outputs out hout := by simp [Pool.start] at hout

theorem All.set (h : p.All P) {s' : WorkerState} (hs' : ∀ out, s'.output? = some out → P out) :
    ∀ t ∈ p.workers.set w s', ∀ out, t.output? = some out → P out := by
  intro t ht
  rcases List.mem_or_eq_of_mem_set ht with ht | rfl
  · exact h.workers t ht
  · exact hs'

theorem All.move (hP : ∀ form ∈ forms, P (Output.ofForm o.fixHints form)) (h : p.All P)
    (hs : p.workers[w]? = some s) (hmove : Move o forms p w s q) : q.All P := by
  have hheld := h.workers s (List.mem_of_getElem? hs)
  cases hmove with
  | take | stop => exact ⟨h.cache, h.set nofun, h.outputs⟩
  | find hform hfind =>
    refine ⟨h.cache.findOutput _, h.set fun out hout => ?_, h.outputs⟩
    cases hout
    exact h.cache.of_findOutput hfind
  | miss hform hfind => exact ⟨h.cache.findOutput _, h.set nofun, h.outputs⟩
  | compile hform =>
    refine ⟨h.cache, h.set fun out hout => ?_, h.outputs⟩
    cases hout
    exact hP _ (List.mem_of_getElem? hform)
  | store hform => exact ⟨h.cache.storeOutput _ (hheld _ rfl), h.set hheld, h.outputs⟩
  | put =>
    refine ⟨h.cache, h.set nofun, fun out hout => ?_⟩
    rcases List.mem_or_eq_of_mem_set hout with hout | hout
    · exact h.outputs out hout
    · exact hheld out (Option.some.inj hout ▸ rfl)

theorem All.run (hP : ∀ form ∈ forms, P (Output.ofForm o.fixHints form)) (h : p.All P)
    (ha : p.Accounted forms n) (schedule : List Nat) : (p.run o forms schedule).All P := by
  refine (run_induction (motive := fun p => p.Accounted forms n ∧ p.All P)
    (fun p w hp => ⟨hp.1.step w, ?_⟩) schedule ⟨ha, h⟩).2
  rcases hp.1.step_cases (o := o) w with ⟨heq, -⟩ | ⟨s, hs, hmove⟩
  · rw [heq]
    exact hp.2
  · exact hp.2.move hP hs hmove

end Pool

/-! ## Compilers -/

namespace Compiler

variable {c : Compiler} {text : Bytes} {r : ModuleResult}

theorem submittedForms_of_read {m : Node} (h : Node.read text = .ok m) :
    submittedForms c.options.fixHints text = c.formsOf m := by
  unfold submittedForms
  rw [h]
  rfl

/-- The outputs behind a result are of one kind if the outputs of the forms of the module are, and
all that the compiler remembers. -/
theorem exists_outputs_of_returns {m : Node}
    (hP : ∀ form ∈ c.formsOf m, P (Output.ofForm c.options.fixHints form))
    (hcache : c.cache.All P) (h : c.Returns m r) :
    ∃ outputs, (∀ out ∈ outputs, P out) ∧ r = .ofOutputs c.options.fixHints
      (moduleDeclarations { fixHints := c.options.fixHints } m).1 (c.formsOf m) outputs := by
  cases h with
  | serial hworkers =>
    refine ⟨_, ?_, compile_fst c m⟩
    rw [compileForms, if_pos hworkers]
    exact (all_compileSerially hP hcache).1
  | pooled hworkers schedule hfinished =>
    refine ⟨_, fun out hout => ?_, rfl⟩
    obtain ⟨out?, hmem, hout⟩ := List.mem_filterMap.1 hout
    obtain rfl : out? = some out := hout
    have hstart := Pool.accounted_start (workers c.options (c.formsOf m).length) c.cache
      (c.formsOf m)
    exact ((Pool.all_start hcache _ _).run hP hstart schedule).outputs out hmem

/-- The same for a text. -/
theorem exists_outputs_of_yields_of_forms
    (hP : ∀ form ∈ submittedForms c.options.fixHints text,
      P (Output.ofForm c.options.fixHints form))
    (hcache : c.cache.All P) (h : c.Yields text (.ok r)) :
    ∃ m outputs, (∀ out ∈ outputs, P out) ∧ r = .ofOutputs c.options.fixHints
      (moduleDeclarations { fixHints := c.options.fixHints } m).1 (c.formsOf m) outputs := by
  cases hread : Node.read text with
  | error e => cases eq_error_of_yields hread h
  | ok m =>
    rw [submittedForms_of_read hread] at hP
    obtain ⟨r', heq, hr⟩ := (yields_iff_of_read hread).1 h
    cases heq
    exact ⟨m, exists_outputs_of_returns hP hcache hr⟩

/-- The outputs behind a result are of one kind if the outputs of all forms are, and all that the
compiler remembers. -/
theorem exists_outputs_of_yields (hP : ∀ form, P (Output.ofForm c.options.fixHints form))
    (hcache : c.cache.All P) (h : c.Yields text (.ok r)) :
    ∃ m outputs, (∀ out ∈ outputs, P out) ∧ r = .ofOutputs c.options.fixHints
      (moduleDeclarations { fixHints := c.options.fixHints } m).1 (c.formsOf m) outputs :=
  exists_outputs_of_yields_of_forms (fun form _ => hP form) hcache h

variable {start c' : Compiler} {action : CompilerAction} {actions : List CompilerAction}

theorem all_of_becomes
    (hP : ∀ form ∈ action.forms c.options.fixHints, P (Output.ofForm c.options.fixHints form))
    (hcache : c.cache.All P) (h : c.Becomes action c') : c'.cache.All P := by
  cases h with
  | unread hread => exact hcache
  | serial hread hworkers =>
    rw [CompilerAction.forms, submittedForms_of_read hread] at hP
    exact (all_compileSerially hP hcache).2
  | @pooled text m hread hworkers schedule hfinished =>
    rw [CompilerAction.forms, submittedForms_of_read hread] at hP
    have hstart := Pool.accounted_start (workers c.options (c.formsOf m).length) c.cache
      (c.formsOf m)
    exact ((Pool.all_start hcache _ _).run hP hstart schedule).cache
  | clear => exact Cache.all_empty

/-- After any actions, and under any schedules, a compiler remembers outputs of the forms that it
was given. -/
theorem all_of_reaches
    (hP : ∀ action ∈ actions, ∀ form ∈ action.forms start.options.fixHints,
      P (Output.ofForm start.options.fixHints form))
    (hcache : start.cache.All P) (h : Reaches start actions c) : c.cache.All P := by
  induction h with
  | nil => exact hcache
  | @concat actions action c c' h hstep ih =>
    rw [List.forall_mem_append] at hP
    refine all_of_becomes ?_ (ih hP.1) hstep
    rw [h.options]
    exact hP.2 action List.mem_cons_self

/-- A session remembers outputs of the forms that it was given, and keeps its options. -/
theorem all_run_of_forms
    (hP : ∀ action ∈ actions, ∀ form ∈ action.forms c.options.fixHints,
      P (Output.ofForm c.options.fixHints form)) (hcache : c.cache.All P) :
    (c.run actions).2.cache.All P ∧ (c.run actions).2.options = c.options :=
  ⟨all_of_reaches hP hcache (reaches_run c actions), (reaches_run c actions).options⟩

/-- A session remembers outputs of one kind only, and keeps its options. -/
theorem all_run (hP : ∀ form, P (Output.ofForm c.options.fixHints form)) (hcache : c.cache.All P)
    (actions : List CompilerAction) :
    (c.run actions).2.cache.All P ∧ (c.run actions).2.options = c.options :=
  all_run_of_forms (fun _ _ form _ => hP form) hcache

end Compiler

end Equate
