import Equate.Compile.Form
/-!
# Compiling through a cache

Under each key a cache remembers what was stored there last. As long as that is always the output
of some form with the key, and forms with one key have one output, compiling forms through the
cache gives the outputs that they have by themselves: `compileSerially_of_remembers`.

Whatever a cache remembers at first, compiling forms adds only what some form of a new key has by
itself (`Cache.Extends`). So each form gets what it would have got from the first cache:
`compileSerially_of_extends`.
-/

namespace Equate

/-! ## Caches -/

namespace Cache

variable {α : Type}

@[simp] theorem value?_empty (key : UInt64) : (empty : Cache α).value? key = none := rfl

theorem find?_insertKey (key k : UInt64) (value : α) (es : List (UInt64 × α)) :
    (insertKey key value es).find? (fun e => e.1 == k) =
      if key = k then some (key, value) else es.find? fun e => e.1 == k := by
  induction es with
  | nil => by_cases h : key = k <;> simp [insertKey, h]
  | cons e es ih =>
    rw [insertKey]
    split
    · rename_i he
      rw [List.find?_cons, List.find?_cons, he]
      by_cases h : key = k
      · rw [if_pos h, beq_iff_eq.2 h]
      · rw [if_neg h, beq_false_of_ne h]
    · rename_i he
      rw [List.find?_cons, List.find?_cons, ih]
      by_cases h : key = k
      · have hek : (e.1 == k) = false := beq_false_of_ne (h ▸ he)
        rw [hek, if_pos h]
      · rw [if_neg h, if_neg h]

@[simp] theorem value?_store (c : Cache α) (key k : UInt64) (value : α) :
    (c.store key value).value? k = if key = k then some value else c.value? k := by
  show Option.map Prod.snd ((insertKey key value c.entries).find? _) = _
  rw [find?_insertKey]
  split <;> rfl

@[simp] theorem find_fst (c : Cache α) (key : UInt64) : (c.find key).1 = c.value? key := by
  unfold find
  split <;> simp [*]

/-- A search only counts. -/
@[simp] theorem value?_find (c : Cache α) (key k : UInt64) :
    (c.find key).2.value? k = c.value? k := by
  unfold find
  split <;> rfl

/-- Each remembered output is that of one of the forms, under the key of this form. -/
def Remembers (fixHints : Bool) (forms : List Node) (c : Cache Output) : Prop :=
  ∀ key out, c.value? key = some out →
    ∃ form ∈ forms, Output.key fixHints form = key ∧ Output.ofForm fixHints form = out

variable {fixHints : Bool} {forms : List Node}

theorem remembers_empty : (empty : Cache Output).Remembers fixHints forms := by
  intro key out h
  rw [value?_empty] at h
  cases h

theorem Remembers.store {c : Cache Output} (h : c.Remembers fixHints forms) {form : Node}
    (hform : form ∈ forms) :
    (c.store (Output.key fixHints form) (Output.ofForm fixHints form)).Remembers
      fixHints forms := by
  intro key out hout
  rw [value?_store] at hout
  split at hout
  · rename_i hkey
    cases hout
    exact ⟨form, hform, hkey, rfl⟩
  · exact h key out hout

end Cache

/-! ## Forms -/

/-- Forms that share a key share their output. -/
def KeysDetermineOutputs (fixHints : Bool) (forms : List Node) : Prop :=
  ∀ f ∈ forms, ∀ g ∈ forms, Output.key fixHints f = Output.key fixHints g →
    Output.ofForm fixHints f = Output.ofForm fixHints g

variable {o : Options} {cache : Cache Output} {forms : List Node}

theorem findOutput_fst (o : Options) (cache : Cache Output) (form : Node) :
    (findOutput o cache form).1 =
      if o.cache then cache.value? (Output.key o.fixHints form) else none := by
  unfold findOutput
  split <;> simp

theorem value?_findOutput (o : Options) (cache : Cache Output) (form : Node) (key : UInt64) :
    (findOutput o cache form).2.value? key = cache.value? key := by
  unfold findOutput
  split
  · exact Cache.value?_find cache _ key
  · rfl

theorem Cache.Remembers.findOutput (h : cache.Remembers o.fixHints forms) (form : Node) :
    (findOutput o cache form).2.Remembers o.fixHints forms := fun key out hout =>
  h key out (value?_findOutput o cache form key ▸ hout)

theorem Cache.Remembers.storeOutput (h : cache.Remembers o.fixHints forms) {form : Node}
    (hform : form ∈ forms) :
    (storeOutput o cache form (Output.ofForm o.fixHints form)).Remembers o.fixHints forms := by
  unfold Equate.storeOutput
  split
  · exact h.store hform
  · exact h

/-- An output that is found is the one that the form has by itself. -/
theorem eq_ofForm_of_findOutput (hkeys : KeysDetermineOutputs o.fixHints forms)
    (h : cache.Remembers o.fixHints forms) {form : Node} (hform : form ∈ forms) {out : Output}
    (hout : (findOutput o cache form).1 = some out) : out = Output.ofForm o.fixHints form := by
  rw [findOutput_fst] at hout
  split at hout
  · obtain ⟨f, hf, hkey, rfl⟩ := h _ _ hout
    exact hkeys f hf form hform hkey
  · cases hout

theorem compileForm_of_remembers (hkeys : KeysDetermineOutputs o.fixHints forms)
    (h : cache.Remembers o.fixHints forms) {form : Node} (hform : form ∈ forms) :
    (compileForm o cache form).1 = Output.ofForm o.fixHints form ∧
      (compileForm o cache form).2.1.Remembers o.fixHints forms := by
  have hfound : ∀ out, (Equate.findOutput o cache form).1 = some out →
      out = Output.ofForm o.fixHints form := fun _ => eq_ofForm_of_findOutput hkeys h hform
  have hcache := h.findOutput form
  unfold compileForm
  split
  · rename_i out cache' heq
    rw [heq] at hfound hcache
    exact ⟨hfound out rfl, hcache⟩
  · rename_i cache' heq
    rw [heq] at hcache
    exact ⟨rfl, hcache.storeOutput hform⟩

theorem compileSerially_of_remembers (hkeys : KeysDetermineOutputs o.fixHints forms)
    {fs : List Node} (hfs : ∀ f ∈ fs, f ∈ forms) (h : cache.Remembers o.fixHints forms) :
    (compileSerially o cache fs).1 = fs.map (Output.ofForm o.fixHints) ∧
      (compileSerially o cache fs).2.1.Remembers o.fixHints forms := by
  induction fs generalizing cache with
  | nil => exact ⟨rfl, h⟩
  | cons f fs ih =>
    obtain ⟨hout, hcache⟩ := compileForm_of_remembers hkeys h (hfs f (by simp))
    obtain ⟨houts, hcache⟩ := ih (fun g hg => hfs g (by simp [hg])) hcache
    refine ⟨?_, hcache⟩
    rw [List.map_cons, ← hout, ← houts]
    rfl

theorem compileForm_cache_off (h : o.cache = false) (cache : Cache Output) (form : Node) :
    compileForm o cache form =
      (Output.ofForm o.fixHints form, cache, .ofOutput (Output.ofForm o.fixHints form)) := by
  simp [compileForm, findOutput, storeOutput, h]

/-- Without a cache each form is compiled by itself. -/
theorem compileSerially_cache_off (h : o.cache = false) (cache : Cache Output)
    (forms : List Node) :
    (compileSerially o cache forms).1 = forms.map (Output.ofForm o.fixHints) := by
  induction forms with
  | nil => rfl
  | cons f fs ih =>
    rw [List.map_cons, ← ih, compileSerially, compileForm_cache_off h]

/-! ## Caches that grow -/

namespace Cache

/-- The output that a form gets from a cache: the one that is remembered, or else its own. -/
def outputFor (o : Options) (c : Cache Output) (form : Node) : Output :=
  if o.cache then (c.value? (Output.key o.fixHints form)).getD (Output.ofForm o.fixHints form)
  else Output.ofForm o.fixHints form

/-- A cache that was `start` and has taken in outputs of forms since. What it knew it still knows,
and a new key belongs to one of the forms. -/
structure Extends (fixHints : Bool) (forms : List Node) (start c : Cache Output) : Prop where
  old : ∀ {key out}, start.value? key = some out → c.value? key = some out
  new : ∀ {key out}, start.value? key = none → c.value? key = some out →
    ∃ form ∈ forms, Output.key fixHints form = key ∧ Output.ofForm fixHints form = out

end Cache

variable {start c : Cache Output}

theorem compileForm_of_found {form : Node} {out : Output}
    (h : (findOutput o c form).1 = some out) :
    compileForm o c form = (out, (findOutput o c form).2, .cacheHit out.name) := by
  unfold compileForm
  split <;> simp_all

theorem compileForm_of_missed {form : Node} (h : (findOutput o c form).1 = none) :
    compileForm o c form = (Output.ofForm o.fixHints form,
      storeOutput o (findOutput o c form).2 form (Output.ofForm o.fixHints form),
      .ofOutput (Output.ofForm o.fixHints form)) := by
  unfold compileForm
  split <;> simp_all

namespace Cache.Extends

theorem refl (fixHints : Bool) (forms : List Node) (c : Cache Output) :
    c.Extends fixHints forms c where
  old h := h
  new hnone hsome := by
    rw [hnone] at hsome
    cases hsome

theorem findOutput (h : start.Extends o.fixHints forms c) (form : Node) :
    start.Extends o.fixHints forms (findOutput o c form).2 where
  old hold := by rw [value?_findOutput, h.old hold]
  new hnone hsome := h.new hnone (value?_findOutput o c form _ ▸ hsome)

/-- To store what the form would have got from the first cache replaces nothing by anything
else. -/
theorem storeOutput (h : start.Extends o.fixHints forms c) {form : Node} (hform : form ∈ forms) :
    start.Extends o.fixHints forms (storeOutput o c form (start.outputFor o form)) := by
  unfold Equate.storeOutput Cache.outputFor
  split
  · refine ⟨fun hold => ?_, fun hnone hsome => ?_⟩
    · rw [Cache.value?_store]
      split
      · rename_i hkey
        rw [hkey, hold]
        rfl
      · exact h.old hold
    · rw [Cache.value?_store] at hsome
      split at hsome
      · rename_i hkey
        rw [hkey, hnone] at hsome
        exact ⟨form, hform, hkey, Option.some.inj hsome⟩
      · exact h.new hnone hsome
  · exact h

/-- The first cache knows nothing of a form that is not found later. -/
theorem outputFor_of_findOutput_none (h : start.Extends o.fixHints forms c) {form : Node}
    (hfind : (Equate.findOutput o c form).1 = none) :
    start.outputFor o form = Output.ofForm o.fixHints form := by
  rw [findOutput_fst] at hfind
  unfold Cache.outputFor
  split
  · rename_i hcache
    rw [if_pos hcache] at hfind
    cases hstart : start.value? (Output.key o.fixHints form) with
    | none => rfl
    | some out =>
      rw [h.old hstart] at hfind
      cases hfind
  · rfl

/-- What is found later is what the form would have got from the first cache. -/
theorem outputFor_of_findOutput_some (h : start.Extends o.fixHints forms c)
    (hkeys : o.cache = true → KeysDetermineOutputs o.fixHints forms) {form : Node}
    (hform : form ∈ forms) {out : Output} (hfind : (Equate.findOutput o c form).1 = some out) :
    start.outputFor o form = out := by
  rw [findOutput_fst] at hfind
  split at hfind
  · rename_i hcache
    rw [Cache.outputFor, if_pos hcache]
    cases hstart : start.value? (Output.key o.fixHints form) with
    | none =>
      obtain ⟨g, hg, hkey, rfl⟩ := h.new hstart hfind
      exact (hkeys hcache g hg form hform hkey).symm
    | some known =>
      rw [h.old hstart] at hfind
      exact Option.some.inj hfind
  · cases hfind

/-- Compiling a form gives what the form would have got from the first cache. -/
theorem compileForm (h : start.Extends o.fixHints forms c)
    (hkeys : o.cache = true → KeysDetermineOutputs o.fixHints forms) {form : Node}
    (hform : form ∈ forms) :
    (compileForm o c form).1 = start.outputFor o form ∧
      start.Extends o.fixHints forms (Equate.compileForm o c form).2.1 := by
  cases hfind : (Equate.findOutput o c form).1 with
  | some out =>
    rw [compileForm_of_found hfind]
    exact ⟨(h.outputFor_of_findOutput_some hkeys hform hfind).symm, h.findOutput form⟩
  | none =>
    rw [compileForm_of_missed hfind, ← h.outputFor_of_findOutput_none hfind]
    exact ⟨rfl, (h.findOutput form).storeOutput hform⟩

end Cache.Extends

/-- A single worker gives each form what it would have got from the first cache. -/
theorem compileSerially_of_extends (h : start.Extends o.fixHints forms c)
    (hkeys : o.cache = true → KeysDetermineOutputs o.fixHints forms) {fs : List Node}
    (hfs : ∀ f ∈ fs, f ∈ forms) :
    (compileSerially o c fs).1 = fs.map (start.outputFor o) := by
  induction fs generalizing c with
  | nil => rfl
  | cons f fs ih =>
    obtain ⟨hout, hcache⟩ := h.compileForm hkeys (hfs f (by simp))
    rw [List.map_cons, ← hout, ← ih hcache fun g hg => hfs g (by simp [hg])]
    rfl

end Equate
