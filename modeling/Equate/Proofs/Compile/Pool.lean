import Equate.Compile.Module
import Equate.Proofs.Compile.Form
/-!
# Invariants of a pool

A pool hands out its forms one after the other, and a form that was handed out is held by a worker
until its output is in its place (`Accounted`). What the workers hold and put down is what one
worker alone would get (`Faithful`), as long as forms that share a key share their output. Both are
kept by each move of a worker, so they hold after any schedule, and tell what is there when all
workers have stopped: `outputs_of_isFinished`.
-/

namespace Equate

variable {o : Options} {forms : List Node} {start : Cache Output}

/-! ## Moves -/

namespace WorkerState

/-- The form that a worker is at. -/
def index? : WorkerState → Option Nat
  | .taken i | .missed i | .compiled i _ | .ready i _ => some i
  | .idle | .stopped => none

/-- What a worker knows of its form agrees with what the form would have got from the first
cache. -/
def Faithful (o : Options) (forms : List Node) (start : Cache Output) : WorkerState → Prop
  | .missed i => ∀ form, forms[i]? = some form →
      start.outputFor o form = Output.ofForm o.fixHints form
  | .compiled i out | .ready i out => ∀ form, forms[i]? = some form →
      start.outputFor o form = out
  | .idle | .taken _ | .stopped => True

/-- The steps that a worker can still make while so many forms are left to be handed out: at most
five for each form, and one to stop. -/
def stepsLeft (left : Nat) : WorkerState → Nat
  | .idle => 5 * left + 1
  | .ready _ _ => 5 * left + 2
  | .compiled _ _ => 5 * left + 3
  | .missed _ => 5 * left + 4
  | .taken _ => 5 * left + 5
  | .stopped => 0

theorem stepsLeft_mono {m n : Nat} (h : m ≤ n) (s : WorkerState) :
    s.stepsLeft m ≤ s.stepsLeft n := by
  cases s <;> simp only [stepsLeft] <;> omega

end WorkerState

namespace Pool

/-- The moves of worker `w`: from which state, and what becomes of the pool `p`. -/
inductive Move (o : Options) (forms : List Node) (p : Pool) (w : Nat) : WorkerState → Pool → Prop
  | take (hnext : p.next < forms.length) :
    Move o forms p w .idle { p.setWorker w (.taken p.next) with
      next := p.next + 1, takings := p.takings ++ [(w, p.next)] }
  | stop (hnext : forms.length ≤ p.next) :
    Move o forms p w .idle { p.setWorker w .stopped with next := p.next + 1 }
  | find {i : Nat} {form : Node} {out : Output} (hform : forms[i]? = some form)
    (hfind : (findOutput o p.cache form).1 = some out) :
    Move o forms p w (.taken i) { p.setWorker w (.ready i out) with
      cache := (findOutput o p.cache form).2, events := p.events ++ [.cacheHit out.name] }
  | miss {i : Nat} {form : Node} (hform : forms[i]? = some form)
    (hfind : (findOutput o p.cache form).1 = none) :
    Move o forms p w (.taken i) { p.setWorker w (.missed i) with
      cache := (findOutput o p.cache form).2 }
  | compile {i : Nat} {form : Node} (hform : forms[i]? = some form) :
    Move o forms p w (.missed i) { p.setWorker w (.compiled i (Output.ofForm o.fixHints form)) with
      events := p.events ++ [.ofOutput (Output.ofForm o.fixHints form)] }
  | store {i : Nat} {form : Node} {out : Output} (hform : forms[i]? = some form) :
    Move o forms p w (.compiled i out) { p.setWorker w (.ready i out) with
      cache := storeOutput o p.cache form out }
  | put {i : Nat} {out : Output} :
    Move o forms p w (.ready i out) { p.setWorker w .idle with
      outputs := p.outputs.set i (some out) }

variable {p q : Pool} {w : Nat} {s : WorkerState}

/-- A worker that has not stopped and is at one of the forms makes a move. -/
theorem move_step (hs : p.workers[w]? = some s) (hstop : s ≠ .stopped)
    (hindex : ∀ i, s.index? = some i → i < forms.length) :
    Move o forms p w s (p.step o forms w) := by
  have hform : ∀ i, s.index? = some i → ∃ form, forms[i]? = some form := fun i hi =>
    ⟨_, List.getElem?_eq_getElem (hindex i hi)⟩
  cases s with
  | stopped => exact absurd rfl hstop
  | idle =>
    simp only [step, hs]
    split
    · rename_i hnext
      exact .take hnext
    · rename_i hnext
      exact .stop (Nat.le_of_not_lt hnext)
  | taken i =>
    obtain ⟨form, hform⟩ := hform i rfl
    simp only [step, hs, hform]
    split
    · rename_i out cache hfind
      obtain rfl : (findOutput o p.cache form).2 = cache := congrArg Prod.snd hfind
      exact .find hform (congrArg Prod.fst hfind)
    · rename_i cache hfind
      obtain rfl : (findOutput o p.cache form).2 = cache := congrArg Prod.snd hfind
      exact .miss hform (congrArg Prod.fst hfind)
  | missed i =>
    obtain ⟨form, hform⟩ := hform i rfl
    simp only [step, hs, hform]
    exact .compile hform
  | compiled i out =>
    obtain ⟨form, hform⟩ := hform i rfl
    simp only [step, hs, hform]
    exact .store hform
  | ready i out =>
    simp only [step, hs]
    exact .put

/-- What each step keeps, a run keeps. -/
theorem run_induction {motive : Pool → Prop}
    (hstep : ∀ p w, motive p → motive (p.step o forms w)) (schedule : List Nat) (h : motive p) :
    motive (p.run o forms schedule) := by
  induction schedule generalizing p with
  | nil => exact h
  | cons w schedule ih => exact ih (hstep p w h)

theorem mem_set_self (hs : p.workers[w]? = some s) (t : WorkerState) : t ∈ p.workers.set w t :=
  List.mem_set (List.getElem?_eq_some_iff.1 hs).1 t

/-- All workers but the one that moves are as they were. -/
theorem eq_or_mem_set {t : WorkerState} (hs : p.workers[w]? = some s) (ht : t ∈ p.workers)
    (s' : WorkerState) : t = s ∨ t ∈ p.workers.set w s' := by
  obtain ⟨v, hv⟩ := List.mem_iff_getElem?.1 ht
  by_cases hvw : v = w
  · rw [hvw, hs] at hv
    exact .inl (Option.some.inj hv).symm
  · refine .inr (List.mem_iff_getElem?.2 ⟨v, ?_⟩)
    rw [List.getElem?_set_ne (Ne.symm hvw), hv]

/-! ## Every form is accounted for -/

/-- Some worker is at the form at `i`. -/
def Holds (p : Pool) (i : Nat) : Prop := ∃ s ∈ p.workers, s.index? = some i

/-- The output of the form at `i` is in its place. -/
def Placed (p : Pool) (i : Nat) : Prop := ∃ out, p.outputs[i]? = some (some out)

/-- Forms are handed out in order, each once and to one of `n` workers. What was handed out is held
until its output is in its place, and no worker stops before the last form was handed out. -/
structure Accounted (forms : List Node) (n : Nat) (p : Pool) : Prop where
  workers : p.workers.length = n
  outputs : p.outputs.length = forms.length
  takings : p.takings.map Prod.snd = List.range (min p.next forms.length)
  takers : ∀ t ∈ p.takings, t.1 < n
  held : ∀ s ∈ p.workers, ∀ i, s.index? = some i → i < forms.length
  placed : ∀ i < min p.next forms.length, p.Placed i ∨ p.Holds i
  stopped : .stopped ∈ p.workers → forms.length ≤ p.next

variable {n : Nat}

theorem accounted_start (n : Nat) (cache : Cache Output) (forms : List Node) :
    (Pool.start n cache forms).Accounted forms n where
  workers := List.length_replicate
  outputs := List.length_map _
  takings := by simp [Pool.start]
  takers t ht := by simp [Pool.start] at ht
  held s hs i hi := by
    rw [List.eq_of_mem_replicate hs] at hi
    cases hi
  placed i hi := by simp [Pool.start] at hi
  stopped hstopped := by cases List.eq_of_mem_replicate hstopped

namespace Accounted

/-- A worker that changes is at a form of the module, if at any. -/
theorem held_set (h : p.Accounted forms n) {s' : WorkerState}
    (hs' : ∀ i, s'.index? = some i → i < forms.length) :
    ∀ t ∈ p.workers.set w s', ∀ i, t.index? = some i → i < forms.length := by
  intro t ht
  rcases List.mem_or_eq_of_mem_set ht with ht | rfl
  · exact h.held t ht
  · exact hs'

/-- A form that is not given up by the worker that changes is held or placed as before. -/
theorem placed_set (h : p.Accounted forms n) (hs : p.workers[w]? = some s) {s' : WorkerState}
    {i : Nat} (hi : i < min p.next forms.length)
    (hkeep : s.index? = some i → s'.index? = some i) :
    p.Placed i ∨ ∃ t ∈ p.workers.set w s', t.index? = some i := by
  rcases h.placed i hi with hplaced | ⟨t, ht, hti⟩
  · exact .inl hplaced
  · rcases eq_or_mem_set hs ht s' with rfl | ht
    · exact .inr ⟨s', mem_set_self hs s', hkeep hti⟩
    · exact .inr ⟨t, ht, hti⟩

theorem stopped_set (h : p.Accounted forms n) {s' : WorkerState} (hs' : s' ≠ .stopped) :
    .stopped ∈ p.workers.set w s' → forms.length ≤ p.next := by
  intro hstopped
  rcases List.mem_or_eq_of_mem_set hstopped with hstopped | rfl
  · exact h.stopped hstopped
  · exact absurd rfl hs'

/-- A worker that stays at its form changes nothing in the accounts. -/
theorem keep (h : p.Accounted forms n) (hs : p.workers[w]? = some s)
    {s' : WorkerState} (hworkers : q.workers = p.workers.set w s')
    (hindex : s'.index? = s.index?) (hs' : s' ≠ .stopped) (houtputs : q.outputs = p.outputs)
    (hnext : q.next = p.next) (htakings : q.takings = p.takings) : q.Accounted forms n where
  workers := by rw [hworkers, List.length_set, h.workers]
  outputs := by rw [houtputs, h.outputs]
  takings := by rw [htakings, hnext, h.takings]
  takers := by rw [htakings]; exact h.takers
  held := by
    rw [hworkers]
    exact h.held_set fun i hi => h.held s (List.mem_of_getElem? hs) i (hindex ▸ hi)
  placed i hi := by
    unfold Placed Holds
    rw [hworkers, houtputs]
    rw [hnext] at hi
    exact h.placed_set hs hi fun hsi => hindex.trans hsi
  stopped := by
    rw [hworkers, hnext]
    exact h.stopped_set hs'

/-- The form that is handed out is held by the worker that takes it. -/
theorem take (h : p.Accounted forms n) (hs : p.workers[w]? = some .idle)
    (hnext : p.next < forms.length) :
    Accounted forms n { p.setWorker w (.taken p.next) with
      next := p.next + 1, takings := p.takings ++ [(w, p.next)] } where
  workers := List.length_set.trans h.workers
  outputs := h.outputs
  takings := by
    rw [Nat.min_eq_left hnext, List.range_succ, List.map_append, h.takings,
      Nat.min_eq_left (Nat.le_of_lt hnext)]
    rfl
  takers t ht := by
    rcases List.mem_append.1 ht with ht | ht
    · exact h.takers t ht
    · rw [List.mem_singleton.1 ht, ← h.workers]
      exact (List.getElem?_eq_some_iff.1 hs).1
  held := by
    refine h.held_set fun i hi => ?_
    cases hi
    exact hnext
  placed i hi := by
    by_cases hlast : i = p.next
    · subst hlast
      exact .inr ⟨_, mem_set_self hs _, rfl⟩
    · exact h.placed_set hs (by simp only at hi; omega) nofun
  stopped hstopped := by
    have hne : WorkerState.taken p.next ≠ .stopped := nofun
    exact Nat.le_succ_of_le (h.stopped_set hne hstopped)

/-- The counter moves on behind the end, so nothing more has been handed out. -/
theorem stop (h : p.Accounted forms n) (hs : p.workers[w]? = some .idle)
    (hnext : forms.length ≤ p.next) :
    Accounted forms n { p.setWorker w .stopped with next := p.next + 1 } where
  workers := List.length_set.trans h.workers
  outputs := h.outputs
  takings := by
    rw [Nat.min_eq_right (Nat.le_succ_of_le hnext), ← Nat.min_eq_right hnext]
    exact h.takings
  takers := h.takers
  held := h.held_set nofun
  placed i hi := h.placed_set hs (by simp only at hi; omega) nofun
  stopped _ := Nat.le_succ_of_le hnext

/-- The form that the worker held is in its place now; the others are where they were. -/
theorem put {i : Nat} {out : Output} (h : p.Accounted forms n)
    (hs : p.workers[w]? = some (.ready i out)) :
    Accounted forms n { p.setWorker w .idle with outputs := p.outputs.set i (some out) } where
  workers := List.length_set.trans h.workers
  outputs := List.length_set.trans h.outputs
  takings := h.takings
  takers := h.takers
  held := h.held_set nofun
  placed j hj := by
    have hi : i < p.outputs.length := by
      rw [h.outputs]
      exact h.held _ (List.mem_of_getElem? hs) i rfl
    by_cases hij : i = j
    · subst hij
      exact .inl ⟨out, List.getElem?_set_self hi⟩
    · rcases h.placed_set hs hj fun hsj => absurd (Option.some.inj hsj) hij with
        ⟨out', hplaced⟩ | hheld
      · exact .inl ⟨out', (List.getElem?_set_ne hij).trans hplaced⟩
      · exact .inr hheld
  stopped := h.stopped_set nofun

theorem move (h : p.Accounted forms n) (hs : p.workers[w]? = some s)
    (hmove : Move o forms p w s q) : q.Accounted forms n := by
  cases hmove with
  | take hnext => exact h.take hs hnext
  | stop hnext => exact h.stop hs hnext
  -- A worker that searches, compiles or stores stays at its form.
  | find hform hfind => exact h.keep hs rfl rfl nofun rfl rfl rfl
  | miss hform hfind => exact h.keep hs rfl rfl nofun rfl rfl rfl
  | compile hform => exact h.keep hs rfl rfl nofun rfl rfl rfl
  | store hform => exact h.keep hs rfl rfl nofun rfl rfl rfl
  | put => exact h.put hs

end Accounted

/-- A worker makes a move, unless there is no such worker or it has stopped. -/
theorem Accounted.step_cases (h : p.Accounted forms n) (w : Nat) :
    (p.step o forms w = p ∧ ∀ s, p.workers[w]? = some s → s = .stopped) ∨
      ∃ s, p.workers[w]? = some s ∧ Move o forms p w s (p.step o forms w) := by
  cases hs : p.workers[w]? with
  | none => exact .inl ⟨by rw [Pool.step, hs], nofun⟩
  | some s =>
    by_cases hstop : s = .stopped
    · subst hstop
      exact .inl ⟨by rw [Pool.step, hs], fun t ht => (Option.some.inj ht).symm⟩
    · exact .inr ⟨s, rfl, move_step hs hstop (h.held s (List.mem_of_getElem? hs))⟩

theorem Accounted.step (h : p.Accounted forms n) (w : Nat) :
    (p.step o forms w).Accounted forms n := by
  rcases h.step_cases (o := o) w with ⟨heq, -⟩ | ⟨s, hs, hmove⟩
  · rwa [heq]
  · exact h.move hs hmove

theorem Accounted.run (h : p.Accounted forms n) (schedule : List Nat) :
    (p.run o forms schedule).Accounted forms n :=
  run_induction (fun _ w hp => hp.step w) schedule h

/-! ## Every output is the right one -/

/-- Outputs in the cache, with the workers and in their places are what their forms would have got
from the first cache. -/
structure Faithful (o : Options) (forms : List Node) (start : Cache Output) (p : Pool) : Prop where
  cache : start.Extends o.fixHints forms p.cache
  workers : ∀ s ∈ p.workers, s.Faithful o forms start
  outputs : ∀ (i : Nat) out form, p.outputs[i]? = some (some out) → forms[i]? = some form →
    start.outputFor o form = out

theorem faithful_start (o : Options) (n : Nat) (cache : Cache Output) (forms : List Node) :
    (Pool.start n cache forms).Faithful o forms cache where
  cache := .refl _ _ _
  workers s hs := by
    rw [List.eq_of_mem_replicate hs]
    trivial
  outputs i out form hout hform := by
    rw [Pool.start, List.getElem?_map, hform] at hout
    cases hout

theorem Faithful.set (h : p.Faithful o forms start) {s' : WorkerState}
    (hs' : s'.Faithful o forms start) : ∀ t ∈ p.workers.set w s', t.Faithful o forms start := by
  intro t ht
  rcases List.mem_or_eq_of_mem_set ht with ht | rfl
  · exact h.workers t ht
  · exact hs'

theorem Faithful.move (h : p.Faithful o forms start)
    (hkeys : o.cache = true → KeysDetermineOutputs o.fixHints forms)
    (hs : p.workers[w]? = some s) (hmove : Move o forms p w s q) : q.Faithful o forms start := by
  have hheld := h.workers s (List.mem_of_getElem? hs)
  cases hmove with
  | take hnext => exact ⟨h.cache, h.set trivial, h.outputs⟩
  | stop hnext => exact ⟨h.cache, h.set trivial, h.outputs⟩
  | find hform hfind =>
    refine ⟨h.cache.findOutput _, h.set fun g hg => ?_, h.outputs⟩
    obtain rfl := Option.some.inj (hform.symm.trans hg)
    exact h.cache.outputFor_of_findOutput_some hkeys (List.mem_of_getElem? hform) hfind
  | miss hform hfind =>
    refine ⟨h.cache.findOutput _, h.set fun g hg => ?_, h.outputs⟩
    obtain rfl := Option.some.inj (hform.symm.trans hg)
    exact h.cache.outputFor_of_findOutput_none hfind
  | compile hform =>
    refine ⟨h.cache, h.set fun g hg => ?_, h.outputs⟩
    obtain rfl := Option.some.inj (hform.symm.trans hg)
    exact hheld _ hg
  | store hform =>
    refine ⟨?_, h.set hheld, h.outputs⟩
    rw [← hheld _ hform]
    exact h.cache.storeOutput (List.mem_of_getElem? hform)
  | @put i out =>
    refine ⟨h.cache, h.set trivial, fun j out' form hout hform => ?_⟩
    by_cases hij : i = j
    · subst hij
      have hi := (List.getElem?_eq_some_iff.1 hout).1
      rw [List.length_set] at hi
      rw [List.getElem?_set_self hi] at hout
      cases hout
      exact hheld form hform
    · rw [List.getElem?_set_ne hij] at hout
      exact h.outputs j out' form hout hform

theorem Faithful.step (h : p.Faithful o forms start) (ha : p.Accounted forms n)
    (hkeys : o.cache = true → KeysDetermineOutputs o.fixHints forms) (w : Nat) :
    (p.step o forms w).Faithful o forms start := by
  rcases ha.step_cases (o := o) w with ⟨heq, -⟩ | ⟨s, hs, hmove⟩
  · rwa [heq]
  · exact h.move hkeys hs hmove

theorem Faithful.run (h : p.Faithful o forms start) (ha : p.Accounted forms n)
    (hkeys : o.cache = true → KeysDetermineOutputs o.fixHints forms) (schedule : List Nat) :
    (p.run o forms schedule).Faithful o forms start :=
  (run_induction (motive := fun p => p.Accounted forms n ∧ p.Faithful o forms start)
    (fun _ w hp => ⟨hp.1.step w, hp.2.step hp.1 hkeys w⟩) schedule ⟨ha, h⟩).2

/-! ## Finished pools -/

theorem Accounted.length_le_next (h : p.Accounted forms n) (hfinished : p.isFinished = true)
    (hn : forms ≠ [] → 0 < n) : forms.length ≤ p.next := by
  cases hforms : forms with
  | nil => exact Nat.zero_le _
  | cons f fs =>
    have hw : 0 < p.workers.length := h.workers ▸ hn (by simp [hforms])
    have hstopped := List.all_eq_true.1 hfinished _ (List.getElem_mem hw)
    exact hforms ▸ h.stopped (beq_iff_eq.1 hstopped ▸ List.getElem_mem hw)

/-- When all workers have stopped, every form has been handed out, and the outputs are those that
the forms would have got from the first cache. -/
theorem outputs_of_isFinished (ha : p.Accounted forms n) (hf : p.Faithful o forms start)
    (hfinished : p.isFinished = true) (hn : forms ≠ [] → 0 < n) :
    p.takings.map Prod.snd = List.range forms.length ∧
      p.outputs = forms.map fun form => some (start.outputFor o form) := by
  have hmin : min p.next forms.length = forms.length :=
    Nat.min_eq_right (ha.length_le_next hfinished hn)
  refine ⟨hmin ▸ ha.takings, List.ext_getElem? fun i => ?_⟩
  cases hform : forms[i]? with
  | none =>
    have hi : forms.length ≤ i := List.getElem?_eq_none_iff.1 hform
    rw [List.getElem?_map, hform, List.getElem?_eq_none (ha.outputs ▸ hi)]
    rfl
  | some form =>
    have hi : i < forms.length := (List.getElem?_eq_some_iff.1 hform).1
    rcases ha.placed i (hmin.symm ▸ hi) with ⟨out, hout⟩ | ⟨s, hs, hindex⟩
    · rw [List.getElem?_map, hform, hout, ← hf.outputs i out form hout hform]
      rfl
    · rw [beq_iff_eq.1 (List.all_eq_true.1 hfinished s hs)] at hindex
      cases hindex

end Pool

end Equate
