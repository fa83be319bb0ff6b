import Mathlib.Data.Finset.Card
import Mathlib.Data.List.Dedup
import Equate.Proofs.Compile.Schedule
/-!
# What a cache counts

A cache that was searched once for each of some forms has counted all of them, has a key for each,
and has missed at least once for each key (`Cache.Tallies`). A single worker stores a new key at
each miss, so there it has missed exactly once for each.

In a pool the search and the storing are two moves with others in between. A worker that took a form
has yet to search for it, and one that missed has yet to store; with these counted in, the tallies
are kept by every move (`Pool.Tallied.move`), and they come out even when all workers have stopped
(`Pool.Tallied.tallies`).
-/

namespace Equate

/-! ## Keys of caches -/

namespace Cache

variable {α : Type}

/-- The keys that a cache has a value for. -/
def keys (c : Cache α) : List UInt64 := c.entries.map Prod.fst

@[simp] theorem length_keys (c : Cache α) : c.keys.length = c.size := List.length_map _

theorem value?_isSome_iff {c : Cache α} {key : UInt64} :
    (c.value? key).isSome = true ↔ key ∈ c.keys := by
  simp [value?, keys]

theorem map_fst_insertKey (key : UInt64) (value : α) (es : List (UInt64 × α)) :
    (insertKey key value es).map Prod.fst =
      if key ∈ es.map Prod.fst then es.map Prod.fst else es.map Prod.fst ++ [key] := by
  induction es with
  | nil => rfl
  | cons e es ih =>
    rw [insertKey]
    split
    · rename_i he
      simp [he]
    · rename_i he
      rw [List.map_cons, List.map_cons, ih]
      simp only [List.mem_cons, Ne.symm he, false_or]
      split <;> rfl

/-- A key is stored in its place, or behind the others if it is new. -/
theorem keys_store (c : Cache α) (key : UInt64) (value : α) :
    (c.store key value).keys = if key ∈ c.keys then c.keys else c.keys ++ [key] :=
  map_fst_insertKey key value c.entries

theorem mem_keys_store {c : Cache α} {key k : UInt64} {value : α} :
    k ∈ (c.store key value).keys ↔ k ∈ c.keys ∨ k = key := by
  rw [keys_store]
  split
  · rename_i h
    constructor
    · exact .inl
    · rintro (hk | rfl)
      · exact hk
      · exact h
  · rw [List.mem_append, List.mem_singleton]

theorem nodup_keys_store {c : Cache α} (h : c.keys.Nodup) (key : UInt64) (value : α) :
    (c.store key value).keys.Nodup := by
  rw [keys_store]
  split
  · exact h
  · rename_i hkey
    rw [← List.concat_eq_append]
    exact h.concat hkey

theorem size_store (c : Cache α) (key : UInt64) (value : α) :
    (c.store key value).size = c.size + if key ∈ c.keys then 0 else 1 := by
  rw [← length_keys, keys_store]
  split <;> simp

/-- A key that was missed and then stored is a new one. -/
theorem size_store_missed {c : Cache α} {key : UInt64} (h : key ∉ c.keys) (value : α) :
    (store { c with misses := c.misses + 1 } key value).size = c.size + 1 := by
  rw [size_store]
  exact congrArg (c.size + ·) (if_neg h)

/-- A cache that was searched once for each of the forms, and stored an output for each of their
keys. -/
structure Tallies (fixHints : Bool) (forms : List Node) (c : Cache Output) : Prop where
  searches : c.hits + c.misses = forms.length
  nodup : c.keys.Nodup
  keys : ∀ key, key ∈ c.keys ↔ key ∈ forms.map (Output.key fixHints)
  size_le : c.size ≤ c.misses

namespace Tallies

variable {fixHints : Bool} {forms : List Node} {c : Cache Output}

theorem empty (fixHints : Bool) : (Cache.empty : Cache Output).Tallies fixHints [] :=
  ⟨rfl, List.nodup_nil, fun _ => Iff.rfl, Nat.le_refl 0⟩

theorem size_eq (h : c.Tallies fixHints forms) :
    c.size = (forms.map (Output.key fixHints)).toFinset.card := by
  have hkeys : c.keys.toFinset = (forms.map (Output.key fixHints)).toFinset := by
    ext key
    rw [List.mem_toFinset, List.mem_toFinset, h.keys]
  rw [← length_keys, ← List.toFinset_card_of_nodup h.nodup, hkeys]

theorem hit (h : c.Tallies fixHints forms) {form : Node}
    (hkey : Output.key fixHints form ∈ c.keys) :
    Tallies fixHints (forms ++ [form]) { c with hits := c.hits + 1 } where
  searches := by
    have := h.searches
    rw [List.length_append, List.length_singleton]
    show c.hits + 1 + c.misses = _
    omega
  nodup := h.nodup
  keys key := by
    rw [List.map_append, List.mem_append, ← h.keys]
    refine ⟨.inl, ?_⟩
    rintro (hmem | hmem)
    · exact hmem
    · rw [List.mem_singleton.1 hmem]
      exact hkey
  size_le := h.size_le

theorem miss (h : c.Tallies fixHints forms) {form : Node}
    (hkey : Output.key fixHints form ∉ c.keys) (out : Output) :
    Tallies fixHints (forms ++ [form])
      (store { c with misses := c.misses + 1 } (Output.key fixHints form) out) where
  searches := by
    have := h.searches
    rw [List.length_append, List.length_singleton]
    show c.hits + (c.misses + 1) = _
    omega
  nodup := nodup_keys_store h.nodup _ _
  keys key := by
    rw [mem_keys_store, List.map_append, List.mem_append, ← h.keys, List.map_singleton,
      List.mem_singleton]
    rfl
  size_le := by
    rw [size_store_missed hkey]
    exact Nat.succ_le_succ h.size_le

end Tallies

end Cache

/-! ## A single worker -/

variable {o : Options} {c : Cache Output} {seen forms : List Node} {form : Node}

/-- What a search through the cache counts. -/
theorem findOutput_of_some {out : Output} (h : (findOutput o c form).1 = some out) :
    (findOutput o c form).2 = { c with hits := c.hits + 1 } ∧
      Output.key o.fixHints form ∈ c.keys := by
  have hfind := findOutput_fst o c form
  rw [h] at hfind
  split at hfind
  · rename_i hcache
    refine ⟨?_, Cache.value?_isSome_iff.1 (by rw [← hfind]; rfl)⟩
    simp only [findOutput, hcache, if_true, Cache.find, ← hfind]
  · cases hfind

theorem findOutput_of_none (hcache : o.cache = true) (h : (findOutput o c form).1 = none) :
    (findOutput o c form).2 = { c with misses := c.misses + 1 } ∧
      Output.key o.fixHints form ∉ c.keys := by
  have hfind := findOutput_fst o c form
  rw [h, if_pos hcache] at hfind
  constructor
  · simp only [findOutput, hcache, if_true, Cache.find, ← hfind]
  · rw [← Cache.value?_isSome_iff, ← hfind]
    exact Bool.false_ne_true

theorem Cache.Tallies.isSome_findOutput (h : c.Tallies o.fixHints seen) (hcache : o.cache = true)
    (form : Node) : (findOutput o c form).1.isSome = true ↔
      Output.key o.fixHints form ∈ seen.map (Output.key o.fixHints) := by
  rw [findOutput_fst, if_pos hcache, Cache.value?_isSome_iff, h.keys]

/-- A single worker stores a new key at each miss. -/
theorem Cache.Tallies.compileForm (h : c.Tallies o.fixHints seen) (hcache : o.cache = true)
    (form : Node) :
    (compileForm o c form).2.1.Tallies o.fixHints (seen ++ [form]) ∧
      (c.misses = c.size →
        (compileForm o c form).2.1.misses = (compileForm o c form).2.1.size) := by
  cases hfind : (findOutput o c form).1 with
  | some out =>
    obtain ⟨hcounted, hkey⟩ := findOutput_of_some hfind
    rw [compileForm_of_found hfind, hcounted]
    exact ⟨h.hit hkey, id⟩
  | none =>
    obtain ⟨hcounted, hkey⟩ := findOutput_of_none hcache hfind
    rw [compileForm_of_missed hfind, hcounted]
    unfold storeOutput
    rw [if_pos hcache]
    refine ⟨h.miss hkey _, fun heven => ?_⟩
    rw [Cache.size_store_missed hkey]
    exact congrArg (· + 1) heven

theorem Cache.Tallies.compileSerially (h : c.Tallies o.fixHints seen) (hcache : o.cache = true)
    (forms : List Node) :
    (compileSerially o c forms).2.1.Tallies o.fixHints (seen ++ forms) ∧
      (c.misses = c.size →
        (compileSerially o c forms).2.1.misses = (compileSerially o c forms).2.1.size) := by
  induction forms generalizing c seen with
  | nil =>
    rw [List.append_nil]
    exact ⟨h, id⟩
  | cons form forms ih =>
    obtain ⟨hform, heven⟩ := h.compileForm hcache form
    obtain ⟨hforms, heven'⟩ := ih hform
    rw [List.append_assoc, List.singleton_append] at hforms
    exact ⟨hforms, fun hc => heven' (heven hc)⟩

/-! ## Pools -/

namespace WorkerState

/-- Whether a worker took a form and has yet to search for it. -/
def isSearching : WorkerState → Bool
  | .taken _ => true
  | _ => false

/-- Whether a worker missed the key of its form and has yet to store its output. -/
def isStoring : WorkerState → Bool
  | .missed _ | .compiled _ _ => true
  | _ => false

/-- The form for which a worker has an output to put down. -/
def ready? : WorkerState → Option Nat
  | .ready i _ => some i
  | _ => none

end WorkerState

namespace Pool

variable {p q : Pool} {n w : Nat} {s : WorkerState}

/-- Whether the form at `i` has an output, with a worker or in its place. -/
def Settled (p : Pool) (i : Nat) : Prop := p.Placed i ∨ ∃ s ∈ p.workers, s.ready? = some i

/-- The tallies of a cache after the forms in `seen`, in the middle of compiling others. -/
structure Tallied (o : Options) (seen forms : List Node) (p : Pool) : Prop where
  searches : p.cache.hits + p.cache.misses + p.workers.countP WorkerState.isSearching =
    seen.length + min p.next forms.length
  nodup : p.cache.keys.Nodup
  old : ∀ form ∈ seen, Output.key o.fixHints form ∈ p.cache.keys
  settled : ∀ (i : Nat) form, forms[i]? = some form → p.Settled i →
    Output.key o.fixHints form ∈ p.cache.keys
  new : ∀ key ∈ p.cache.keys, key ∈ (seen ++ forms).map (Output.key o.fixHints)
  misses : p.cache.size + p.workers.countP WorkerState.isStoring ≤ p.cache.misses

theorem tallied_start (h : c.Tallies o.fixHints seen) (n : Nat) (forms : List Node) :
    (Pool.start n c forms).Tallied o seen forms where
  searches := by
    have hcount : (List.replicate n WorkerState.idle).countP WorkerState.isSearching = 0 := by
      simp [List.countP_replicate, WorkerState.isSearching]
    show c.hits + c.misses + (List.replicate n WorkerState.idle).countP _ = _
    rw [hcount, h.searches]
    exact congrArg (seen.length + ·) (Nat.zero_min forms.length).symm
  nodup := h.nodup
  old form hform := (h.keys _).2 (List.mem_map_of_mem hform)
  settled i form _ hsettled := by
    rcases hsettled with ⟨out, hout⟩ | ⟨s, hs, hready⟩
    · rw [Pool.start, List.getElem?_map, Option.map_eq_some_iff] at hout
      obtain ⟨_, -, hout⟩ := hout
      cases hout
    · rw [List.eq_of_mem_replicate hs] at hready
      cases hready
  new key hkey := by
    rw [List.map_append]
    exact List.mem_append_left _ ((h.keys key).1 hkey)
  misses := by
    have hcount : (List.replicate n WorkerState.idle).countP WorkerState.isStoring = 0 := by
      simp [List.countP_replicate, WorkerState.isStoring]
    show c.size + (List.replicate n WorkerState.idle).countP _ ≤ _
    rw [hcount]
    exact h.size_le

/-- A worker that moves changes the count of workers by itself only. -/
theorem countP_set_add (P : WorkerState → Bool) (hs : p.workers[w]? = some s) (s' : WorkerState) :
    (p.workers.set w s').countP P + (P s).toNat = p.workers.countP P + (P s').toNat := by
  obtain ⟨hw, rfl⟩ := List.getElem?_eq_some_iff.1 hs
  rw [List.countP_set hw]
  cases hP : P p.workers[w] with
  | false => cases P s' <;> rfl
  | true =>
    have hpos : 0 < p.workers.countP P := List.countP_pos_iff.2 ⟨_, List.getElem_mem hw, hP⟩
    cases P s' <;> simp <;> omega

/-- What is settled after a worker changed was settled before, unless it is the worker's own. -/
theorem settled_of_set {s' : WorkerState} {i : Nat} (h : q.Settled i)
    (hworkers : q.workers = p.workers.set w s') (houtputs : q.outputs = p.outputs) :
    p.Settled i ∨ s'.ready? = some i := by
  unfold Settled Placed at h
  rw [hworkers, houtputs] at h
  rcases h with hplaced | ⟨t, ht, hready⟩
  · exact .inl (.inl hplaced)
  · rcases List.mem_or_eq_of_mem_set ht with ht | rfl
    · exact .inl (.inr ⟨t, ht, hready⟩)
    · exact .inr hready

theorem settled_of_set_unready {s' : WorkerState} {i : Nat} (hs' : s'.ready? = none)
    (h : q.Settled i) (hworkers : q.workers = p.workers.set w s')
    (houtputs : q.outputs = p.outputs) : p.Settled i := by
  rcases settled_of_set h hworkers houtputs with h | hready
  · exact h
  · rw [hs'] at hready
    cases hready

/-- An output that is put in its place was settled before. -/
theorem settled_of_put {i j : Nat} {out : Output} (hs : p.workers[w]? = some (.ready i out))
    (h : Settled { p.setWorker w .idle with outputs := p.outputs.set i (some out) } j) :
    p.Settled j := by
  rcases h with ⟨out', hout⟩ | ⟨t, ht, hready⟩
  · by_cases hij : i = j
    · subst hij
      exact .inr ⟨_, List.mem_of_getElem? hs, rfl⟩
    · exact .inl ⟨out', (List.getElem?_set_ne hij).symm.trans hout⟩
  · rcases List.mem_or_eq_of_mem_set ht with ht | rfl
    · exact .inr ⟨t, ht, hready⟩
    · cases hready

namespace Tallied

/-- A move that leaves the cache alone keeps the tallies if it keeps the counts of workers. -/
theorem keep (h : p.Tallied o seen forms) (hcache : q.cache = p.cache)
    (hsettled : ∀ i, q.Settled i → p.Settled i)
    (hsearching : q.workers.countP WorkerState.isSearching + min p.next forms.length =
      p.workers.countP WorkerState.isSearching + min q.next forms.length)
    (hstoring : q.workers.countP WorkerState.isStoring = p.workers.countP WorkerState.isStoring) :
    q.Tallied o seen forms where
  searches := by
    have := h.searches
    rw [hcache]
    omega
  nodup := hcache ▸ h.nodup
  old := hcache ▸ h.old
  settled i form hform hq := hcache ▸ h.settled i form hform (hsettled i hq)
  new := hcache ▸ h.new
  misses := by
    rw [hcache, hstoring]
    exact h.misses

/-- A worker that searches gives up its search for a count in the cache. -/
theorem count (h : p.Tallied o seen forms) (hkeys : q.cache.keys = p.cache.keys)
    (hsettled : ∀ (i : Nat) form, forms[i]? = some form → q.Settled i →
      p.Settled i ∨ Output.key o.fixHints form ∈ p.cache.keys)
    (hnext : q.next = p.next)
    (hsearching : q.cache.hits + q.cache.misses + q.workers.countP WorkerState.isSearching =
      p.cache.hits + p.cache.misses + p.workers.countP WorkerState.isSearching)
    (hstoring : q.workers.countP WorkerState.isStoring + p.cache.misses =
      p.workers.countP WorkerState.isStoring + q.cache.misses) : q.Tallied o seen forms where
  searches := by rw [hsearching, h.searches, hnext]
  nodup := hkeys ▸ h.nodup
  old := hkeys ▸ h.old
  settled i form hform hq := by
    rw [hkeys]
    exact (hsettled i form hform hq).elim (h.settled i form hform) id
  new := hkeys ▸ h.new
  misses := by
    have := h.misses
    rw [← Cache.length_keys, hkeys, Cache.length_keys]
    omega

theorem move (h : p.Tallied o seen forms) (hcache : o.cache = true)
    (hs : p.workers[w]? = some s) (hmove : Move o forms p w s q) : q.Tallied o seen forms := by
  have hsearching (s' : WorkerState) := countP_set_add WorkerState.isSearching hs s'
  have hstoring (s' : WorkerState) := countP_set_add WorkerState.isStoring hs s'
  cases hmove with
  | take hnext =>
    refine h.keep rfl (fun i hi => settled_of_set_unready rfl hi rfl rfl) ?_
      (hstoring (.taken p.next))
    have hcount := hsearching (.taken p.next)
    simp only [WorkerState.isSearching, Bool.toNat_false, Bool.toNat_true] at hcount
    simp only [setWorker]
    omega
  | stop hnext =>
    refine h.keep rfl (fun i hi => settled_of_set_unready rfl hi rfl rfl) ?_
      (hstoring .stopped)
    have hcount := hsearching .stopped
    simp only [WorkerState.isSearching, Bool.toNat_false] at hcount
    simp only [setWorker]
    omega
  | @find i form out hform hfind =>
    obtain ⟨hfound, hkey⟩ := findOutput_of_some hfind
    rw [hfound]
    -- the output that is settled now was found, so its key is there
    refine h.count rfl (fun j g hg hj => ?_) rfl ?_ ?_
    · refine (settled_of_set hj rfl rfl).imp_right fun hready => ?_
      obtain rfl := Option.some.inj hready
      obtain rfl := Option.some.inj (hform.symm.trans hg)
      exact hkey
    · have hcount := hsearching (.ready i out)
      simp only [WorkerState.isSearching, Bool.toNat_false, Bool.toNat_true] at hcount
      simp only [setWorker]
      omega
    · exact congrArg (· + p.cache.misses) (hstoring (.ready i out))
  | @miss i form hform hfind =>
    obtain ⟨hmissed, -⟩ := findOutput_of_none hcache hfind
    rw [hmissed]
    refine h.count rfl (fun j g hg hj => .inl ?_) rfl ?_ ?_
    · exact settled_of_set_unready rfl hj rfl rfl
    · have hcount := hsearching (.missed i)
      simp only [WorkerState.isSearching, Bool.toNat_false, Bool.toNat_true] at hcount
      simp only [setWorker]
      omega
    · have hcount := hstoring (.missed i)
      simp only [WorkerState.isStoring, Bool.toNat_false, Bool.toNat_true] at hcount
      simp only [setWorker]
      omega
  | compile hform =>
    refine h.keep rfl (fun i hi => settled_of_set_unready rfl hi rfl rfl) ?_ ?_
    · exact congrArg (· + min p.next forms.length) (hsearching _)
    · exact Nat.add_right_cancel (hstoring _)
  | @store i form out hform =>
    have hstore : storeOutput o p.cache form out =
        p.cache.store (Output.key o.fixHints form) out := if_pos hcache
    rw [hstore]
    refine ⟨?_, Cache.nodup_keys_store h.nodup _ _, ?_, ?_, ?_, ?_⟩
    · exact (congrArg (p.cache.hits + p.cache.misses + ·) (hsearching (.ready i out))).trans
        h.searches
    · exact fun g hg => Cache.mem_keys_store.2 (.inl (h.old g hg))
    · intro j g hg hj
      refine Cache.mem_keys_store.2 ((settled_of_set hj rfl rfl).imp (h.settled j g hg) ?_)
      intro hready
      obtain rfl := Option.some.inj hready
      obtain rfl := Option.some.inj (hform.symm.trans hg)
      rfl
    · intro key hkey
      rcases Cache.mem_keys_store.1 hkey with hkey | rfl
      · exact h.new key hkey
      · exact List.mem_map_of_mem (List.mem_append_right _ (List.mem_of_getElem? hform))
    · -- the worker that stores no longer has to, which makes room for a new key
      have hmisses := h.misses
      have hcount := hstoring (.ready i out)
      have hsize := p.cache.size_store (Output.key o.fixHints form) out
      simp only [WorkerState.isStoring, Bool.toNat_false, Bool.toNat_true] at hcount
      show (p.cache.store _ out).size + (p.workers.set w _).countP _ ≤ p.cache.misses
      split at hsize <;> omega
  | put =>
    refine h.keep rfl (fun i hi => settled_of_put hs hi) ?_ ?_
    · exact congrArg (· + min p.next forms.length) (hsearching .idle)
    · exact hstoring .idle

theorem run (h : p.Tallied o seen forms) (ha : p.Accounted forms n) (hcache : o.cache = true)
    (schedule : List Nat) : (p.run o forms schedule).Tallied o seen forms := by
  refine (run_induction (motive := fun p => p.Accounted forms n ∧ p.Tallied o seen forms)
    (fun p w hp => ⟨hp.1.step w, ?_⟩) schedule ⟨ha, h⟩).2
  rcases hp.1.step_cases (o := o) w with ⟨heq, -⟩ | ⟨s, hs, hmove⟩
  · rw [heq]
    exact hp.2
  · exact hp.2.move hcache hs hmove

/-- When all workers have stopped, no search and no storing is left to be done. -/
theorem tallies (h : p.Tallied o seen forms) (ha : p.Accounted forms n)
    (hfinished : p.isFinished = true) (hn : forms ≠ [] → 0 < n) :
    p.cache.Tallies o.fixHints (seen ++ forms) := by
  have hstopped : ∀ s ∈ p.workers, s = .stopped := fun s hs =>
    beq_iff_eq.1 (List.all_eq_true.1 hfinished s hs)
  have hmin : min p.next forms.length = forms.length :=
    Nat.min_eq_right (ha.length_le_next hfinished hn)
  have hnone : p.workers.countP WorkerState.isSearching = 0 := by
    refine List.countP_eq_zero.2 fun s hs => ?_
    rw [hstopped s hs]
    exact Bool.false_ne_true
  refine ⟨?_, h.nodup, fun key => ⟨h.new key, fun hkey => ?_⟩, ?_⟩
  · have hsearches := h.searches
    rw [hnone, hmin] at hsearches
    rw [List.length_append]
    exact hsearches
  · obtain ⟨form, hform, rfl⟩ := List.mem_map.1 hkey
    rcases List.mem_append.1 hform with hform | hform
    · exact h.old form hform
    · obtain ⟨i, hi⟩ := List.mem_iff_getElem?.1 hform
      have hlt : i < min p.next forms.length := by
        rw [hmin]
        exact (List.getElem?_eq_some_iff.1 hi).1
      rcases ha.placed i hlt with hplaced | ⟨s, hs, hindex⟩
      · exact h.settled i form hi (.inl hplaced)
      · rw [hstopped s hs] at hindex
        cases hindex
  · exact Nat.le_trans (Nat.le_add_right _ _) h.misses

end Tallied

end Pool

end Equate
