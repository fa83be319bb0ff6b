import Equate.Proofs.Compile.Schedule
import Equate.Proofs.Diagnostic.Report
/-!
# Results of texts

What a text can be compiled to (`Compiler.Yields`), and a module (`Compiler.Returns`): on several
workers that may be the result of any schedule. Where the cache cannot make a difference there is
one result only, that of the forms each by itself (`eq_of_yields`).

Of the outputs of a module the later ones of a name are turned into duplicates. What becomes of an
output is told by its name and by the outputs in front of it: `getElem?_declarations_ofOutputs`.
-/

namespace Equate

namespace Compiler

/-- What compiling a text can come to. On several workers every schedule that stops them all has a
result. -/
inductive Yields (c : Compiler) (text : Bytes) : Except ReadError ModuleResult → Prop where
  | unread {e : ReadError} (hread : Node.read text = .error e) : Yields c text (.error e)
  | serial {m : Node} (hread : Node.read text = .ok m)
      (hworkers : workers c.options (c.formsOf m).length ≤ 1) :
      Yields c text (.ok (c.compile m).1)
  | pooled {m : Node} (hread : Node.read text = .ok m)
      (hworkers : 1 < workers c.options (c.formsOf m).length) (schedule : List Nat)
      (hfinished : (c.poolAfter m schedule).isFinished = true) :
      Yields c text (.ok (c.poolResult m (c.poolAfter m schedule)))

/-- What compiling a module can come to. -/
inductive Returns (c : Compiler) (m : Node) : ModuleResult → Prop where
  | serial (hworkers : workers c.options (c.formsOf m).length ≤ 1) : Returns c m (c.compile m).1
  | pooled (hworkers : 1 < workers c.options (c.formsOf m).length) (schedule : List Nat)
      (hfinished : (c.poolAfter m schedule).isFinished = true) :
      Returns c m (c.poolResult m (c.poolAfter m schedule))

/-- Taking turns is one of the schedules. -/
theorem returns_compile (c : Compiler) (m : Node) : c.Returns m (c.compile m).1 := by
  by_cases hworkers : workers c.options (c.formsOf m).length ≤ 1
  · exact .serial hworkers
  · obtain ⟨schedule, hfinished, heq⟩ := Pool.compileInPool_eq c.options
      (workers c.options (c.formsOf m).length) c.cache (c.formsOf m)
    have hresult : (c.compile m).1 = c.poolResult m (c.poolAfter m schedule) := by
      rw [compile_fst, compileForms, if_neg hworkers, heq]
      rfl
    rw [hresult]
    exact .pooled (Nat.lt_of_not_le hworkers) schedule hfinished

/-- A text that can be read comes to what its module can come to. -/
theorem yields_iff_of_read {c : Compiler} {text : Bytes} {m : Node} (hread : Node.read text = .ok m)
    {result : Except ReadError ModuleResult} :
    c.Yields text result ↔ ∃ r, result = .ok r ∧ c.Returns m r := by
  constructor
  · rintro (herror | ⟨hread', hworkers⟩ | ⟨hread', hworkers, schedule, hfinished⟩)
    · rw [hread] at herror
      cases herror
    · obtain rfl := Except.ok.inj (hread.symm.trans hread')
      exact ⟨_, rfl, .serial hworkers⟩
    · obtain rfl := Except.ok.inj (hread.symm.trans hread')
      exact ⟨_, rfl, .pooled hworkers schedule hfinished⟩
  · rintro ⟨r, rfl, hworkers | ⟨hworkers, schedule, hfinished⟩⟩
    · exact .serial hread hworkers
    · exact .pooled hread hworkers schedule hfinished

theorem yields_compileText (c : Compiler) (text : Bytes) :
    c.Yields text (c.compileText text).1 := by
  unfold compileText
  cases hread : Node.read text with
  | error e => exact .unread hread
  | ok m => exact (yields_iff_of_read hread).2 ⟨_, rfl, returns_compile c m⟩

/-- What was computed of a result tells that there is one. -/
theorem exists_of_any_toOption {ε α : Type} {x : Except ε α} {p : α → Bool}
    (h : x.toOption.any p = true) : ∃ a, x = .ok a ∧ p a = true := by
  cases x with
  | error e => cases h
  | ok a => exact ⟨a, rfl, h⟩

theorem exists_of_map_toOption {ε α β : Type} {x : Except ε α} {f : α → β} {b : β}
    (h : x.toOption.map f = some b) : ∃ a, x = .ok a ∧ f a = b := by
  cases x with
  | error e => cases h
  | ok a => exact ⟨a, rfl, Option.some.inj h⟩

/-- The outputs of a pool whose workers have stopped are those that the forms get from the cache of
the compiler. -/
theorem filterMap_outputs_poolAfter {c : Compiler} {m : Node} {schedule : List Nat}
    (hkeys : c.options.cache = true → KeysDetermineOutputs c.options.fixHints (c.formsOf m))
    (h : (c.poolAfter m schedule).isFinished = true) :
    (c.poolAfter m schedule).outputs.filterMap id =
      (c.formsOf m).map (c.cache.outputFor c.options) := by
  have hstart := Pool.accounted_start (workers c.options (c.formsOf m).length) c.cache
    (c.formsOf m)
  have hfaithful := (Pool.faithful_start c.options (workers c.options (c.formsOf m).length) c.cache
    (c.formsOf m)).run hstart hkeys schedule
  have houtputs := (Pool.outputs_of_isFinished (hstart.run schedule) hfaithful h (workers_pos _)).2
  unfold poolAfter
  rw [houtputs, List.filterMap_map]
  exact congrFun List.filterMap_eq_map _

theorem eq_error_of_yields {c : Compiler} {text : Bytes} {e : ReadError}
    (hread : Node.read text = .error e) {result : Except ReadError ModuleResult}
    (h : c.Yields text result) : result = .error e := by
  cases h with
  | unread herror => rw [Except.error.inj (hread.symm.trans herror)]
  | serial hread' | pooled hread' =>
    rw [hread] at hread'
    cases hread'

/-- If forms that share a key share their output, each form gets what it would get from the cache
that the compiler starts with. -/
theorem eq_of_returns {c : Compiler} {m : Node}
    (hkeys : c.options.cache = true → KeysDetermineOutputs c.options.fixHints (c.formsOf m))
    {r : ModuleResult} (h : c.Returns m r) :
    r = .ofOutputs c.options.fixHints
      (moduleDeclarations { fixHints := c.options.fixHints } m).1 (c.formsOf m)
      ((c.formsOf m).map (c.cache.outputFor c.options)) := by
  cases h with
  | serial hworkers =>
    rw [compile_fst, compileForms, if_pos hworkers,
      compileSerially_of_extends (.refl _ _ _) hkeys fun _ h => h]
  | pooled hworkers schedule hfinished =>
    rw [← filterMap_outputs_poolAfter hkeys hfinished]
    rfl

theorem eq_of_yields {c : Compiler} {text : Bytes} {m : Node} (hread : Node.read text = .ok m)
    (hkeys : c.options.cache = true → KeysDetermineOutputs c.options.fixHints (c.formsOf m))
    {result : Except ReadError ModuleResult} (h : c.Yields text result) :
    result = .ok (.ofOutputs c.options.fixHints
      (moduleDeclarations { fixHints := c.options.fixHints } m).1 (c.formsOf m)
      ((c.formsOf m).map (c.cache.outputFor c.options))) := by
  obtain ⟨r, rfl, hr⟩ := (yields_iff_of_read hread).1 h
  rw [eq_of_returns hkeys hr]

/-- A single worker compiles the forms one after the other. -/
theorem eq_of_yields_of_jobs_le {c : Compiler} (hjobs : c.options.jobs ≤ 1) {text : Bytes}
    {m : Node} (hread : Node.read text = .ok m) {result : Except ReadError ModuleResult}
    (h : c.Yields text result) :
    result = .ok (.ofOutputs c.options.fixHints
      (moduleDeclarations { fixHints := c.options.fixHints } m).1 (c.formsOf m)
      (compileSerially c.options c.cache (c.formsOf m)).1) := by
  obtain ⟨r, rfl, hr⟩ := (yields_iff_of_read hread).1 h
  cases hr with
  | serial => rw [compile_fst, compileForms_of_jobs_le hjobs]
  | pooled hworkers =>
    unfold workers at hworkers
    omega

/-- Without a cache there is one result, whatever the schedule: that of the forms each by itself. -/
theorem eq_ofOutputs_of_returns {c : Compiler} (hcache : c.options.cache = false) {m : Node}
    {r : ModuleResult} (h : c.Returns m r) :
    r = .ofOutputs c.options.fixHints
      (moduleDeclarations { fixHints := c.options.fixHints } m).1 (c.formsOf m)
      ((c.formsOf m).map (Output.ofForm c.options.fixHints)) := by
  have hkeys : c.options.cache = true →
      KeysDetermineOutputs c.options.fixHints (c.formsOf m) := by
    rw [hcache]
    nofun
  have houtput : c.cache.outputFor c.options = Output.ofForm c.options.fixHints :=
    funext fun form => by simp [Cache.outputFor, hcache]
  rw [eq_of_returns hkeys h, houtput]

theorem eq_plainResult_of_yields {c : Compiler} (hcache : c.options.cache = false) {text : Bytes}
    {result : Except ReadError ModuleResult} (h : c.Yields text result) :
    result = plainResult c.options.fixHints text := by
  cases hread : Node.read text with
  | error e =>
    rw [eq_error_of_yields hread h, plainResult, hread]
    rfl
  | ok m =>
    obtain ⟨r, rfl, hr⟩ := (yields_iff_of_read hread).1 h
    rw [eq_ofOutputs_of_returns hcache hr, plainResult, hread]
    rfl

end Compiler

/-! ## Duplicates -/

namespace ModuleResult

/-- An output that has a name is kept and its name is remembered, unless the name was seen. -/
theorem markDuplicates_cons (fixHints : Bool) (seen : Std.TreeMap Bytes Location) (form : Node)
    (out : Output) (rest : List (Node × Output)) :
    ∃ seen', (∀ k ≠ [], seen'[k]?.isSome ↔ seen[k]?.isSome ∨ out.name = k) ∧
      ((out.name ≠ [] ∧ seen[out.name]?.isSome ∧ ∃ first,
          markDuplicates fixHints seen ((form, out) :: rest) =
            out.duplicate fixHints form.location first :: markDuplicates fixHints seen' rest) ∨
        (¬ (out.name ≠ [] ∧ seen[out.name]?.isSome) ∧
          markDuplicates fixHints seen ((form, out) :: rest) =
            out :: markDuplicates fixHints seen' rest)) := by
  rw [markDuplicates]
  split
  · rename_i hname
    have hname := List.isEmpty_iff.1 hname
    refine ⟨seen, fun k hk => ?_, .inr ⟨fun h => h.1 hname, rfl⟩⟩
    simp [hname, Ne.symm hk]
  · rename_i hname
    have hname : out.name ≠ [] := fun h => hname (List.isEmpty_iff.2 h)
    cases hseen : seen[out.name]? with
    | some first =>
      refine ⟨seen, fun k _ => ⟨.inl, ?_⟩, .inl ⟨hname, rfl, first, rfl⟩⟩
      rintro (h | rfl)
      · exact h
      · rw [hseen]
        rfl
    | none =>
      refine ⟨seen.insert out.name form.location, fun k _ => ?_, .inr ⟨nofun, rfl⟩⟩
      rw [Std.TreeMap.getElem?_insert]
      by_cases h : out.name = k <;> simp [h]

/-- Whether the names that were seen are those of the outputs in front, each at the place of the
first form that has it. -/
def SeenIn (earlier : List (Node × Output)) (seen : Std.TreeMap Bytes Location) : Prop :=
  ∀ name ≠ [], seen[name]? = (earlier.find? fun p => p.2.name == name).map fun p => p.1.location

/-- What becomes of the output of a form: it is turned into a duplicate if it has a name that an
output in front has, too. -/
def resolve (fixHints : Bool) (earlier : List (Node × Output)) (form : Node) (out : Output) :
    Output :=
  if out.name = [] then out
  else
    match earlier.find? fun p => p.2.name == out.name with
    | some first => out.duplicate fixHints form.location first.1.location
    | none => out

variable {earlier : List (Node × Output)} {seen : Std.TreeMap Bytes Location}

theorem seenIn_empty : SeenIn [] {} := fun name _ => by
  rw [Std.TreeMap.getElem?_emptyc]
  rfl

/-- A name that was seen, or no name at all, tells nothing new. -/
theorem SeenIn.keep (h : SeenIn earlier seen) {form : Node} {out : Output}
    (hout : out.name = [] ∨ seen[out.name]?.isSome) : SeenIn (earlier ++ [(form, out)]) seen := by
  intro name hname
  rw [List.find?_append, h name hname]
  cases hfind : earlier.find? fun p => p.2.name == name with
  | some first => rfl
  | none =>
    -- nothing was seen under this name, so it is not the name of the output
    have hne : out.name ≠ name := by
      rintro rfl
      rcases hout with hout | hout
      · exact hname hout
      · rw [h _ hname, hfind] at hout
        cases hout
    simp [hne]

theorem SeenIn.insert (h : SeenIn earlier seen) {form : Node} {out : Output}
    (hout : seen[out.name]? = none) :
    SeenIn (earlier ++ [(form, out)]) (seen.insert out.name form.location) := by
  intro name hname
  rw [Std.TreeMap.getElem?_insert, List.find?_append, h name hname]
  by_cases heq : out.name = name
  · have hfind := h name hname
    rw [← heq, hout, heq, eq_comm, Option.map_eq_none_iff] at hfind
    simp [heq, hfind]
  · simp [heq]

theorem markDuplicates_cons_of_seenIn (fixHints : Bool) (h : SeenIn earlier seen) (form : Node)
    (out : Output) (rest : List (Node × Output)) :
    ∃ seen', SeenIn (earlier ++ [(form, out)]) seen' ∧
      markDuplicates fixHints seen ((form, out) :: rest) =
        resolve fixHints earlier form out :: markDuplicates fixHints seen' rest := by
  rw [markDuplicates]
  by_cases hname : out.name = []
  · rw [if_pos (List.isEmpty_iff.2 hname)]
    exact ⟨seen, h.keep (.inl hname), by rw [resolve, if_pos hname]⟩
  · rw [if_neg (by rwa [List.isEmpty_iff]), resolve, if_neg hname]
    have hfind := h out.name hname
    cases hseen : seen[out.name]? with
    | some location =>
      rw [hseen, eq_comm, Option.map_eq_some_iff] at hfind
      obtain ⟨first, hfirst, rfl⟩ := hfind
      exact ⟨seen, h.keep (.inr (by rw [hseen]; rfl)), by rw [hfirst]⟩
    | none =>
      rw [hseen, eq_comm, Option.map_eq_none_iff] at hfind
      exact ⟨seen.insert out.name form.location, h.insert hseen, by rw [hfind]⟩

/-- An output keeps its place among the declarations, and what becomes of it is told by those in
front of it. -/
theorem getElem?_markDuplicates (fixHints : Bool) (h : SeenIn earlier seen)
    (pairs : List (Node × Output)) (i : Nat) :
    (markDuplicates fixHints seen pairs)[i]? =
      pairs[i]?.map fun p => resolve fixHints (earlier ++ pairs.take i) p.1 p.2 := by
  induction pairs generalizing earlier seen i with
  | nil => rfl
  | cons pair rest ih =>
    obtain ⟨seen', hseen', heq⟩ := markDuplicates_cons_of_seenIn fixHints h pair.1 pair.2 rest
    rw [heq]
    cases i with
    | zero => simp
    | succ i =>
      rw [List.getElem?_cons_succ, List.getElem?_cons_succ, ih hseen' i, List.take_succ_cons,
        List.append_assoc]
      rfl

/-- The outputs of forms that are compiled each by itself, with the duplicates among them. -/
theorem getElem?_ofOutputs (fixHints : Bool) (diagnostics : List Diagnostic)
    (forms : List Node) (f : Node → Output) (i : Nat) :
    (ofOutputs fixHints diagnostics forms (forms.map f)).declarations[i]? =
      forms[i]?.map fun form =>
        resolve fixHints ((forms.take i).map fun g => (g, f g)) form (f form) := by
  have hzip : forms.zip (forms.map f) = forms.map fun g => (g, f g) := by
    have h := List.zip_map' (f := id) (g := f) (l := forms)
    rwa [List.map_id] at h
  rw [ofOutputs, getElem?_markDuplicates fixHints seenIn_empty, hzip, List.getElem?_map,
    List.nil_append, ← List.map_take, Option.map_map]
  rfl

/-- The outputs of forms that are compiled each by itself: those whose name an earlier form has are
duplicates, and the others stay as they are. -/
theorem getElem?_declarations_ofOutputs (fixHints : Bool) (diagnostics : List Diagnostic)
    {forms : List Node} (f : Node → Output) {i : Nat} {form : Node} (hi : forms[i]? = some form) :
    let repeated := (f form).name ≠ [] ∧ (f form).name ∈ (forms.take i).map fun g => (f g).name
    let declarations := (ofOutputs fixHints diagnostics forms (forms.map f)).declarations
    (repeated ∧ ∃ first, declarations[i]? =
        some ((f form).duplicate fixHints form.location first)) ∨
      ¬ repeated ∧ declarations[i]? = some (f form) := by
  dsimp only
  rw [getElem?_ofOutputs, hi, Option.map_some, resolve]
  by_cases hname : (f form).name = []
  · rw [if_pos hname]
    exact .inr ⟨fun h => h.1 hname, rfl⟩
  · rw [if_neg hname]
    cases hfind : ((forms.take i).map fun g => (g, f g)).find?
        fun p => p.2.name == (f form).name with
    | some first =>
      obtain ⟨g, hg, rfl⟩ := List.mem_map.1 (List.mem_of_find?_eq_some hfind)
      have hsame : (f g).name = (f form).name := by simpa using List.find?_some hfind
      exact .inl ⟨⟨hname, List.mem_map.2 ⟨g, hg, hsame⟩⟩, g.location, rfl⟩
    | none =>
      refine .inr ⟨fun h => ?_, rfl⟩
      obtain ⟨g, hg, hsame⟩ := List.mem_map.1 h.2
      have hdiffers := List.find?_eq_none.1 hfind _ (List.mem_map.2 ⟨g, hg, rfl⟩)
      exact hdiffers (beq_iff_eq.2 hsame)

/-- Among the outputs of a module are those of its forms, as they are or turned into duplicates. -/
theorem exists_of_mem_markDuplicates {fixHints : Bool} {pairs : List (Node × Output)}
    {out : Output} (h : out ∈ markDuplicates fixHints seen pairs) :
    ∃ p ∈ pairs, out = p.2 ∨ ∃ location first, out = p.2.duplicate fixHints location first := by
  induction pairs generalizing seen with
  | nil => cases h
  | cons pair rest ih =>
    obtain ⟨seen', -, ⟨-, -, first, heq⟩ | ⟨-, heq⟩⟩ :=
      markDuplicates_cons fixHints seen pair.1 pair.2 rest
    · rw [heq] at h
      rcases List.mem_cons.1 h with rfl | h
      · exact ⟨pair, List.mem_cons_self, .inr ⟨_, first, rfl⟩⟩
      · exact (ih h).imp fun _ => .imp_left (List.mem_cons_of_mem _)
    · rw [heq] at h
      rcases List.mem_cons.1 h with rfl | h
      · exact ⟨pair, List.mem_cons_self, .inl rfl⟩
      · exact (ih h).imp fun _ => .imp_left (List.mem_cons_of_mem _)

theorem exists_of_mem_declarations {fixHints : Bool} {diagnostics : List Diagnostic}
    {forms : List Node} {outputs : List Output} {out : Output}
    (h : out ∈ (ofOutputs fixHints diagnostics forms outputs).declarations) :
    ∃ own ∈ outputs, out = own ∨ ∃ location first, out = own.duplicate fixHints location first := by
  obtain ⟨p, hp, hout⟩ := exists_of_mem_markDuplicates h
  exact ⟨p.2, (List.of_mem_zip hp).2, hout⟩

theorem length_markDuplicates (fixHints : Bool) (seen : Std.TreeMap Bytes Location)
    (pairs : List (Node × Output)) :
    (markDuplicates fixHints seen pairs).length = pairs.length := by
  induction pairs generalizing seen with
  | nil => rfl
  | cons pair rest ih =>
    obtain ⟨seen', -, ⟨-, -, first, heq⟩ | ⟨-, heq⟩⟩ :=
      markDuplicates_cons fixHints seen pair.1 pair.2 rest
    · rw [heq, List.length_cons, ih, List.length_cons]
    · rw [heq, List.length_cons, ih, List.length_cons]

end ModuleResult

end Equate
