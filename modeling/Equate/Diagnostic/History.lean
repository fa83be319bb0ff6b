import Equate.Diagnostic.Basic
/-!
# Histories of reports

What can be done to a set of reports, one action at a time: reporting a diagnostic to one of them,
amending the diagnostic that was reported last, and appending one report to another. All reports
start empty.
-/

namespace Equate

inductive ReportAction where
  /-- Turns to another report; nothing counts as reported last. -/
  | select (report : Nat)
  /-- Reports a diagnostic to the selected report. -/
  | emit (code message hint : Bytes) (location : Location)
  /-- Adds a fix to the diagnostic reported last. -/
  | fix (f : Fix)
  /-- Adds a note to the diagnostic reported last. -/
  | note (n : Note)
  /-- Appends the report `source` to the report `target`; nothing counts as reported last. -/
  | merge (target source : Nat)
  deriving DecidableEq, Repr

/-- The reports, which of them is selected, and the severity of the diagnostic reported last. -/
structure ReportHistory where
  reports : Nat → Report
  selected : Nat := 0
  latest : Option Severity := none

/-- Changes the last element of a list. -/
def amendLast {α : Type} (f : α → α) : List α → List α
  | [] => []
  | [x] => [f x]
  | x :: y :: rest => x :: amendLast f (y :: rest)

/-- Changes the last diagnostic of one severity. -/
def Report.amendLast (r : Report) (severity : Severity) (f : Diagnostic → Diagnostic) : Report :=
  match severity with
  | .error => { r with errors := Equate.amendLast f r.errors }
  | .warning => { r with warnings := Equate.amendLast f r.warnings }

namespace ReportHistory

def empty : ReportHistory := { reports := fun _ => .empty }

/-- Puts a report in place of another. -/
def setReport (h : ReportHistory) (i : Nat) (r : Report) : ReportHistory :=
  { h with reports := fun j => if j = i then r else h.reports j }

/-- Changes the diagnostic reported last, if there is one. -/
def amend (h : ReportHistory) (f : Diagnostic → Diagnostic) : ReportHistory :=
  match h.latest with
  | some severity => h.setReport h.selected ((h.reports h.selected).amendLast severity f)
  | none => h

/-- Carries out an action; `reporter` gives the reporter of each report. -/
def step (reporter : Nat → Reporter) (h : ReportHistory) : ReportAction → ReportHistory
  | .select i => { h with selected := i, latest := none }
  | .emit code message hint location =>
    let d := (reporter h.selected).diagnostic code message hint location
    { h.setReport h.selected ((h.reports h.selected).add d) with latest := some d.severity }
  | .fix f =>
    if (reporter h.selected).fixHints then h.amend fun d => { d with fixes := d.fixes ++ [f] }
    else h
  | .note n => h.amend fun d => { d with notes := d.notes ++ [n] }
  | .merge target source =>
    { h.setReport target ((h.reports target).merge (h.reports source)) with latest := none }

/-- The reports after each action. -/
def run (reporter : Nat → Reporter) (actions : List ReportAction) : ReportHistory :=
  actions.foldl (step reporter) empty

end ReportHistory

end Equate
