import Equate.Diagnostic.Basic
/-!
# Reports and their diagnostics

A report of diagnostics holds each of them once, the errors apart from the warnings, and succeeds
if there are no errors: `ofList_eq`. A report that collects errors only is told by the list of
them.
-/

namespace Equate

theorem Severity.ofCode_code (rule : Rule) : Severity.ofCode rule.code = rule.severity := by
  cases rule <;> rfl

namespace Report

theorem foldl_add (ds : List Diagnostic) (r : Report) :
    ds.foldl add r =
      ⟨r.success && ds.all (·.severity == .warning),
        r.errors ++ ds.filter (·.severity == .error),
        r.warnings ++ ds.filter (·.severity == .warning)⟩ := by
  induction ds generalizing r with
  | nil => simp
  | cons d ds ih =>
    rw [List.foldl_cons, ih, add]
    cases hd : d.severity <;> simp [hd]

theorem ofList_eq (ds : List Diagnostic) :
    ofList ds =
      ⟨ds.all (·.severity == .warning), ds.filter (·.severity == .error),
        ds.filter (·.severity == .warning)⟩ :=
  foldl_add ds empty

/-- What goes for all diagnostics goes for the errors and the warnings that are collected of them. -/
theorem forall_ofList {P : Diagnostic → Prop} {ds : List Diagnostic} (h : ∀ d ∈ ds, P d) :
    (∀ d ∈ (ofList ds).errors, P d) ∧ ∀ d ∈ (ofList ds).warnings, P d := by
  rw [ofList_eq]
  exact ⟨fun d hd => h d (List.mem_filter.1 hd).1, fun d hd => h d (List.mem_filter.1 hd).1⟩

theorem success_ofList_iff (ds : List Diagnostic) :
    (ofList ds).success = true ↔ ∀ d ∈ ds, d.severity = .warning := by
  rw [ofList_eq, List.all_eq_true]
  exact forall₂_congr fun _ _ => beq_iff_eq

theorem success_ofList_iff_errors (ds : List Diagnostic) :
    (ofList ds).success = true ↔ (ofList ds).errors = [] := by
  rw [success_ofList_iff, ofList_eq, List.filter_eq_nil_iff]
  refine forall₂_congr fun d _ => ?_
  cases d.severity <;> decide

theorem ofList_of_errors {ds : List Diagnostic} (h : ∀ d ∈ ds, d.severity = .error) :
    ofList ds = ⟨ds.isEmpty, ds, []⟩ := by
  have hsuccess : ds.all (·.severity == .warning) = ds.isEmpty := by
    cases ds with
    | nil => rfl
    | cons d ds => simp [h d (by simp)]
  rw [ofList_eq, hsuccess, List.filter_eq_self.2 fun d hd => by rw [h d hd]; rfl,
    List.filter_eq_nil_iff.2 fun d hd => by rw [h d hd]; decide]

/-- The report with every diagnostic changed by `f`. -/
def map (f : Diagnostic → Diagnostic) (r : Report) : Report :=
  ⟨r.success, r.errors.map f, r.warnings.map f⟩

theorem map_merge (f : Diagnostic → Diagnostic) (a b : Report) :
    (a.merge b).map f = (a.map f).merge (b.map f) := by
  simp [map, merge]

variable {f : Diagnostic → Diagnostic}

/-- What keeps the severity of diagnostics leaves each of them where it is in the report. -/
theorem map_add (hf : ∀ d, (f d).severity = d.severity) (r : Report) (d : Diagnostic) :
    (r.add d).map f = (r.map f).add (f d) := by
  unfold add
  rw [hf]
  cases d.severity <;> simp [map]

theorem map_ofList (hf : ∀ d, (f d).severity = d.severity) (ds : List Diagnostic) :
    (ofList ds).map f = ofList (ds.map f) := by
  have hfoldl (r : Report) : (ds.foldl add r).map f = (ds.map f).foldl add (r.map f) := by
    induction ds generalizing r with
    | nil => rfl
    | cons d ds ih => rw [List.foldl_cons, ih, map_add hf, List.map_cons, List.foldl_cons]
  exact hfoldl empty

/-- Errors in front of one report tell the whole apart. -/
theorem ofList_merge_inj {ds es : List Diagnostic} (hds : ∀ d ∈ ds, d.severity = .error)
    (hes : ∀ d ∈ es, d.severity = .error) (r : Report) :
    (ofList ds).merge r = (ofList es).merge r ↔ ds = es := by
  constructor
  · intro h
    have herrors := congrArg errors h
    rw [ofList_of_errors hds, ofList_of_errors hes] at herrors
    exact List.append_cancel_right herrors
  · intro h
    rw [h]

end Report

end Equate
