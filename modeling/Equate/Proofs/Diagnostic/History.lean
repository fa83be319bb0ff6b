import Mathlib.Logic.Function.Basic
import Equate.Diagnostic.History
import Equate.Proofs.Diagnostic.Report
/-!
# The bookkeeping of reports

A report keeps its flag beside its lists, and nothing but the operations on reports ties the two
together. What must hold of them is `Report.IsConsistent`. Reporting, amending and merging keep it
(`Report.IsConsistent.of_becomes`), so it holds of any number of reports at any time
(`Report.isConsistent_of_reaches`), and in particular throughout the histories that can be played
(`ReportHistory.reaches_run`).
-/

namespace Equate

namespace Diagnostic

/-- Whether the severity is that of the rule with the code, or error if there is none. -/
structure IsGraded (d : Diagnostic) : Prop where
  known : ∀ rule : Rule, rule.code = d.code → d.severity = rule.severity
  unknown : (∀ rule : Rule, rule.code ≠ d.code) → d.severity = .error

theorem isGraded_of_eq {d : Diagnostic} (h : d.severity = .ofCode d.code) : d.IsGraded where
  known rule hrule := by rw [h, ← hrule, Severity.ofCode_code]
  unknown hnone := by
    have hfind : Rule.ofCode? d.code = none :=
      List.find?_eq_none.2 fun rule _ => by simpa using hnone rule
    rw [h, Severity.ofCode, hfind]

/-- What is added to a diagnostic after it was reported. -/
inductive Amends (d : Diagnostic) : Diagnostic → Prop where
  | fix (f : Fix) : Amends d { d with fixes := d.fixes ++ [f] }
  | note (n : Note) : Amends d { d with notes := d.notes ++ [n] }

theorem Amends.severity_eq {d d' : Diagnostic} (h : d.Amends d') : d'.severity = d.severity := by
  cases h <;> rfl

theorem Amends.isGraded {d d' : Diagnostic} (h : d.Amends d') (hd : d.IsGraded) : d'.IsGraded := by
  cases h <;> exact ⟨hd.known, hd.unknown⟩

end Diagnostic

/-! ## Operations on one report -/

namespace Report

/-- Whether the flag tells if there are errors, and each diagnostic is where its code belongs. -/
structure IsConsistent (r : Report) : Prop where
  success_iff : r.success = true ↔ r.errors = []
  errors : ∀ d ∈ r.errors, d.severity = .error ∧ d.IsGraded
  warnings : ∀ d ∈ r.warnings, d.severity = .warning ∧ d.IsGraded

theorem isConsistent_empty : empty.IsConsistent :=
  ⟨⟨fun _ => rfl, fun _ => rfl⟩, List.forall_mem_nil _, List.forall_mem_nil _⟩

namespace IsConsistent

variable {r r' : Report}

theorem add (h : r.IsConsistent) {d : Diagnostic} (hd : d.IsGraded) : (r.add d).IsConsistent := by
  unfold Report.add
  cases hseverity : d.severity with
  | error =>
    refine ⟨by simp, fun x hx => ?_, h.warnings⟩
    rcases List.mem_append.1 hx with hx | hx
    · exact h.errors x hx
    · obtain rfl := List.mem_singleton.1 hx
      exact ⟨hseverity, hd⟩
  | warning =>
    refine ⟨h.success_iff, h.errors, fun x hx => ?_⟩
    rcases List.mem_append.1 hx with hx | hx
    · exact h.warnings x hx
    · obtain rfl := List.mem_singleton.1 hx
      exact ⟨hseverity, hd⟩

theorem merge (h : r.IsConsistent) (h' : r'.IsConsistent) : (r.merge r').IsConsistent where
  success_iff := by
    show (r.success && r'.success) = true ↔ r.errors ++ r'.errors = []
    rw [Bool.and_eq_true, List.append_eq_nil_iff, h.success_iff, h'.success_iff]
  errors d hd := (List.mem_append.1 hd).elim (h.errors d) (h'.errors d)
  warnings d hd := (List.mem_append.1 hd).elim (h.warnings d) (h'.warnings d)

end IsConsistent

/-- A report of graded diagnostics. -/
theorem isConsistent_ofList {ds : List Diagnostic} (hds : ∀ d ∈ ds, d.IsGraded) :
    (ofList ds).IsConsistent := by
  rw [ofList]
  generalize hr : empty = r
  have h : r.IsConsistent := hr ▸ isConsistent_empty
  clear hr
  induction ds generalizing r with
  | nil => exact h
  | cons d ds ih =>
    obtain ⟨hd, hds⟩ := List.forall_mem_cons.1 hds
    exact ih hds (r.add d) (h.add hd)

theorem isConsistent_ofList_map {α : Type} {f : α → Diagnostic} (hf : ∀ a, (f a).IsGraded)
    (as : List α) : (ofList (as.map f)).IsConsistent :=
  isConsistent_ofList (List.forall_mem_map.2 fun a _ => hf a)

/-- Whether a report is another one in which one diagnostic was amended. -/
inductive Amends (r : Report) : Report → Prop where
  | error {front rear : List Diagnostic} {d d' : Diagnostic} (hr : r.errors = front ++ d :: rear)
      (hd : d.Amends d') : Amends r { r with errors := front ++ d' :: rear }
  | warning {front rear : List Diagnostic} {d d' : Diagnostic}
      (hr : r.warnings = front ++ d :: rear) (hd : d.Amends d') :
      Amends r { r with warnings := front ++ d' :: rear }

/-- What holds of all diagnostics still does when one of them is amended. -/
theorem forall_mem_of_amends {severity : Severity} {front rear : List Diagnostic}
    {d d' : Diagnostic} (hd : d.Amends d')
    (h : ∀ x ∈ front ++ d :: rear, x.severity = severity ∧ x.IsGraded) :
    ∀ x ∈ front ++ d' :: rear, x.severity = severity ∧ x.IsGraded := by
  simp only [List.forall_mem_append, List.forall_mem_cons] at h ⊢
  obtain ⟨hfront, ⟨hseverity, hgraded⟩, hrear⟩ := h
  exact ⟨hfront, ⟨hd.severity_eq.trans hseverity, hd.isGraded hgraded⟩, hrear⟩

theorem IsConsistent.of_amends {r r' : Report} (h : r.IsConsistent) (hr : r.Amends r') :
    r'.IsConsistent := by
  cases hr with
  | error hr hd =>
    refine ⟨?_, forall_mem_of_amends hd (hr ▸ h.errors), h.warnings⟩
    rw [h.success_iff, hr]
    simp
  | warning hr hd => exact ⟨h.success_iff, h.errors, forall_mem_of_amends hd (hr ▸ h.warnings)⟩

/-! ## Operations on many reports -/

/-- What one operation can make of any number of reports: a reporter reports to one of them, a
diagnostic in one of them is amended, or one of them is appended to another. -/
inductive Becomes (reports : Nat → Report) : (Nat → Report) → Prop where
  | emit (rep : Reporter) (i : Nat) (code message hint : Bytes) (location : Location) :
      Becomes reports (Function.update reports i
        ((reports i).add (rep.diagnostic code message hint location)))
  | amend {i : Nat} {r : Report} (h : (reports i).Amends r) :
      Becomes reports (Function.update reports i r)
  | merge (target source : Nat) :
      Becomes reports (Function.update reports target
        ((reports target).merge (reports source)))

/-- What empty reports can come to by operations, one after the other. -/
inductive Reaches : (Nat → Report) → Prop where
  | empty : Reaches fun _ => .empty
  | step {reports reports' : Nat → Report} (h : Reaches reports) (hstep : Becomes reports reports') :
      Reaches reports'

theorem forall_update {reports : Nat → Report} (h : ∀ j, (reports j).IsConsistent) {i : Nat}
    {r : Report} (hr : r.IsConsistent) (j : Nat) : (Function.update reports i r j).IsConsistent := by
  rw [Function.update_apply]
  split
  · exact hr
  · exact h j

/-- Each operation keeps the bookkeeping of all reports. -/
theorem IsConsistent.of_becomes {reports reports' : Nat → Report}
    (h : ∀ i, (reports i).IsConsistent) (hstep : Becomes reports reports') :
    ∀ i, (reports' i).IsConsistent := by
  cases hstep with
  | emit rep i => exact forall_update h ((h i).add (Diagnostic.isGraded_of_eq rfl))
  | @amend i r hr => exact forall_update h ((h i).of_amends hr)
  | merge target source => exact forall_update h ((h target).merge (h source))

theorem isConsistent_of_reaches {reports : Nat → Report} (h : Reaches reports) :
    ∀ i, (reports i).IsConsistent := by
  induction h with
  | empty => exact fun _ => isConsistent_empty
  | step _ hstep ih => exact IsConsistent.of_becomes ih hstep

end Report

/-! ## Histories -/

/-- Changing the last element keeps those in front of it. -/
theorem amendLast_cases {α : Type} (f : α → α) (xs : List α) :
    amendLast f xs = xs ∨ ∃ front x, xs = front ++ [x] ∧ amendLast f xs = front ++ [f x] := by
  fun_induction amendLast f xs with
  | case1 => exact .inl rfl
  | case2 x => exact .inr ⟨[], x, rfl, rfl⟩
  | case3 x y rest ih =>
    rcases ih with heq | ⟨front, z, hz, heq⟩
    · exact .inl (by rw [heq])
    · exact .inr ⟨x :: front, z, by rw [hz]; rfl, by rw [heq]; rfl⟩

theorem Report.amends_amendLast (r : Report) (severity : Severity) {f : Diagnostic → Diagnostic}
    (hf : ∀ d : Diagnostic, d.Amends (f d)) :
    r.amendLast severity f = r ∨ r.Amends (r.amendLast severity f) := by
  cases severity with
  | error =>
    rcases amendLast_cases f r.errors with heq | ⟨front, d, hd, heq⟩
    · exact .inl (by rw [amendLast, heq])
    · exact .inr (by rw [amendLast, heq]; exact .error hd (hf d))
  | warning =>
    rcases amendLast_cases f r.warnings with heq | ⟨front, d, hd, heq⟩
    · exact .inl (by rw [amendLast, heq])
    · exact .inr (by rw [amendLast, heq]; exact .warning hd (hf d))

namespace ReportHistory

variable {reporter : Nat → Reporter} {h : ReportHistory}

theorem reports_setReport (h : ReportHistory) (i : Nat) (r : Report) :
    (h.setReport i r).reports = Function.update h.reports i r := by
  funext j
  rw [Function.update_apply]
  rfl

/-- Amending what was reported last amends one diagnostic, or none. -/
theorem becomes_amend {f : Diagnostic → Diagnostic} (hf : ∀ d : Diagnostic, d.Amends (f d)) :
    (h.amend f).reports = h.reports ∨ Report.Becomes h.reports (h.amend f).reports := by
  unfold amend
  split
  · rename_i severity _
    rw [reports_setReport]
    rcases (h.reports h.selected).amends_amendLast severity hf with heq | hamends
    · exact .inl (by rw [heq, Function.update_eq_self])
    · exact .inr (.amend hamends)
  · exact .inl rfl

/-- An action of a history is an operation on its reports, or changes none of them. -/
theorem becomes_step (reporter : Nat → Reporter) (h : ReportHistory) (action : ReportAction) :
    (h.step reporter action).reports = h.reports ∨
      Report.Becomes h.reports (h.step reporter action).reports := by
  cases action with
  | select i => exact .inl rfl
  | emit code message hint location =>
    right
    rw [step]
    dsimp only
    rw [reports_setReport]
    exact .emit _ _ _ _ _ _
  | fix f =>
    rw [step]
    split
    · exact becomes_amend fun d => .fix f
    · exact .inl rfl
  | note n => exact becomes_amend fun d => .note n
  | merge target source =>
    right
    rw [step]
    dsimp only
    rw [reports_setReport]
    exact .merge _ _

theorem reaches_run (reporter : Nat → Reporter) (actions : List ReportAction) :
    Report.Reaches (run reporter actions).reports := by
  have hfoldl (h : ReportHistory) (hreaches : Report.Reaches h.reports) :
      Report.Reaches (actions.foldl (step reporter) h).reports := by
    induction actions generalizing h with
    | nil => exact hreaches
    | cons action actions ih =>
      refine ih _ ?_
      rcases becomes_step reporter h action with heq | hstep
      · rwa [heq]
      · exact hreaches.step hstep
  exact hfoldl empty .empty

end ReportHistory

end Equate
