import Equate.Options
import Equate.Proofs.Json.Reader
/-!
# What the JSON text of a report tells

The text of a report is that of a JSON value (`Report.denotes_json`), and the value holds all fields
of the report but the severities, which the two lists stand for (`Report.ofValue?_document`). So a
reader of JSON gets the report back, whatever bytes its texts hold, and two reports have one text
only if nothing but severities tells them apart.
-/

namespace Equate

open Json

/-! ## Values of reports -/

/-- The value that the text of a note says; likewise for fixes, diagnostics and reports. -/
def Note.document (n : Note) : Value :=
  .object [("message", .string n.message), ("line", .number (.ofInt n.location.line)),
    ("col", .number (.ofInt n.location.column))]

def Fix.document (f : Fix) : Value :=
  .object [("key", .string f.key), ("title", .string f.title)]

def Diagnostic.document (d : Diagnostic) : Value :=
  .object [("code", .string d.code), ("message", .string d.message), ("hint", .string d.hint),
    ("line", .number (.ofInt d.location.line)), ("col", .number (.ofInt d.location.column)),
    ("declaration", .string d.declaration), ("notes", .array (d.notes.map Note.document)),
    ("fixes", .array (d.fixes.map Fix.document))]

def Report.document (r : Report) : Value :=
  .object [("success", .bool r.success), ("errors", .array (r.errors.map Diagnostic.document)),
    ("warnings", .array (r.warnings.map Diagnostic.document))]

variable {depth : Nat}

theorem Note.denotes_json (n : Note) : Denotes (depth + 2) (Json.note n) n.document := by
  apply denotes_object [("message", string n.message, .string n.message),
    ("line", Bytes.ofInt n.location.line, .number (.ofInt n.location.line)),
    ("col", Bytes.ofInt n.location.column, .number (.ofInt n.location.column))]
  · simp only [List.forall_mem_cons]
    decide
  · simp only [List.forall_mem_cons]
    exact ⟨denotes_string _, denotes_ofInt _, denotes_ofInt _, List.forall_mem_nil _⟩

theorem Fix.denotes_json (f : Fix) : Denotes (depth + 2) (Json.fix f) f.document := by
  apply denotes_object [("key", string f.key, .string f.key),
    ("title", string f.title, .string f.title)]
  · simp only [List.forall_mem_cons]
    decide
  · simp only [List.forall_mem_cons]
    exact ⟨denotes_string _, denotes_string _, List.forall_mem_nil _⟩

theorem Diagnostic.denotes_json (d : Diagnostic) :
    Denotes (depth + 4) (Json.diagnostic d) d.document := by
  apply denotes_object [("code", string d.code, .string d.code),
    ("message", string d.message, .string d.message), ("hint", string d.hint, .string d.hint),
    ("line", Bytes.ofInt d.location.line, .number (.ofInt d.location.line)),
    ("col", Bytes.ofInt d.location.column, .number (.ofInt d.location.column)),
    ("declaration", string d.declaration, .string d.declaration),
    ("notes", array (d.notes.map Json.note), .array (d.notes.map Note.document)),
    ("fixes", array (d.fixes.map Json.fix), .array (d.fixes.map Fix.document))]
  · simp only [List.forall_mem_cons]
    decide
  · simp only [List.forall_mem_cons]
    exact ⟨denotes_string _, denotes_string _, denotes_string _, denotes_ofInt _, denotes_ofInt _,
      denotes_string _, denotes_array fun n _ => n.denotes_json,
      denotes_array fun f _ => f.denotes_json, List.forall_mem_nil _⟩

theorem Report.denotes_json (r : Report) : Denotes (depth + 6) r.json r.document := by
  apply denotes_object [("success", bool r.success, .bool r.success),
    ("errors", array (r.errors.map Json.diagnostic), .array (r.errors.map Diagnostic.document)),
    ("warnings", array (r.warnings.map Json.diagnostic),
      .array (r.warnings.map Diagnostic.document))]
  · simp only [List.forall_mem_cons]
    decide
  · simp only [List.forall_mem_cons]
    exact ⟨denotes_bool _, denotes_array fun d _ => d.denotes_json,
      denotes_array fun d _ => d.denotes_json, List.forall_mem_nil _⟩

/-! ## Reading reports back -/

namespace Json.Value

/-- The value of a key; of fields with one key the first counts. -/
def field? (key : Bytes) : Value → Option Value
  | object fields => (fields.find? fun f => f.1 == key).map Prod.snd
  | _ => none

def bytes? : Value → Option Bytes
  | string s => some s
  | _ => none

def bool? : Value → Option Bool
  | bool b => some b
  | _ => none

def int? : Value → Option Int
  | number n => if n.isInteger then some n.integer else none
  | _ => none

/-- The items of an array, each read by `read?`. -/
def items? {α : Type} (read? : Value → Option α) : Value → Option (List α)
  | array items => items.mapM read?
  | _ => none

/-- The place that an object gives by a line and a column. -/
def location? (v : Value) : Option Location := do
  let line ← (v.field? "line").bind int?
  let column ← (v.field? "col").bind int?
  return ⟨line, column⟩

theorem int?_ofInt (i : Int) : (number (.ofInt i)).int? = some i := by
  have hinteger : (Numeral.ofInt i).isInteger = true := rfl
  show (if (Numeral.ofInt i).isInteger then some (Numeral.ofInt i).integer else none) = _
  rw [if_pos hinteger, Numeral.integer_ofInt]

theorem location?_eq {v : Value} {l : Location}
    (hline : v.field? "line" = some (.number (.ofInt l.line)))
    (hcolumn : v.field? "col" = some (.number (.ofInt l.column))) : v.location? = some l := by
  unfold location?
  rw [hline, hcolumn, Option.bind_some, Option.bind_some, int?_ofInt, int?_ofInt]
  rfl

theorem items?_map {α β : Type} {read? : Value → Option β} {f : α → Value} {g : α → β}
    (h : ∀ x, read? (f x) = some (g x)) (xs : List α) :
    (array (xs.map f)).items? read? = some (xs.map g) := by
  show (xs.map f).mapM read? = _
  induction xs with
  | nil => rfl
  | cons x xs ih => simp [h, ih]

end Json.Value

def Note.ofValue? (v : Value) : Option Note := do
  let message ← (v.field? "message").bind Value.bytes?
  let location ← v.location?
  return { message, location }

def Fix.ofValue? (v : Value) : Option Fix := do
  let key ← (v.field? "key").bind Value.bytes?
  let title ← (v.field? "title").bind Value.bytes?
  return { key, title }

def Diagnostic.ofValue? (severity : Severity) (v : Value) : Option Diagnostic := do
  let code ← (v.field? "code").bind Value.bytes?
  let message ← (v.field? "message").bind Value.bytes?
  let hint ← (v.field? "hint").bind Value.bytes?
  let location ← v.location?
  let declaration ← (v.field? "declaration").bind Value.bytes?
  let notes ← (v.field? "notes").bind (Value.items? Note.ofValue?)
  let fixes ← (v.field? "fixes").bind (Value.items? Fix.ofValue?)
  return { code, severity, message, hint, location, notes, fixes, declaration }

def Report.ofValue? (v : Value) : Option Report := do
  let success ← (v.field? "success").bind Value.bool?
  let errors ← (v.field? "errors").bind (Value.items? (Diagnostic.ofValue? .error))
  let warnings ← (v.field? "warnings").bind (Value.items? (Diagnostic.ofValue? .warning))
  return { success, errors, warnings }

/-- Reads a report from its JSON text. -/
def Report.ofJson? (text : Bytes) : Option Report := (Value.read text).bind Report.ofValue?

/-- The diagnostic with this severity in place of its own. -/
def Diagnostic.withSeverity (severity : Severity) (d : Diagnostic) : Diagnostic :=
  { d with severity }

/-- The report whose diagnostics have the severity of the list they stand in. -/
def Report.bySeverity (r : Report) : Report :=
  { r with
    errors := r.errors.map (Diagnostic.withSeverity .error)
    warnings := r.warnings.map (Diagnostic.withSeverity .warning) }

theorem Note.ofValue?_document (n : Note) : ofValue? n.document = some n := by
  have hlocation : n.document.location? = some n.location := Value.location?_eq rfl rfl
  unfold ofValue?
  rw [hlocation]
  rfl

theorem Fix.ofValue?_document (f : Fix) : ofValue? f.document = some f := rfl

theorem Diagnostic.ofValue?_document (severity : Severity) (d : Diagnostic) :
    ofValue? severity d.document = some (d.withSeverity severity) := by
  have hlocation : d.document.location? = some d.location := Value.location?_eq rfl rfl
  have hnotes : (d.document.field? "notes").bind (Value.items? Note.ofValue?) =
      some (d.notes.map id) := Value.items?_map Note.ofValue?_document d.notes
  have hfixes : (d.document.field? "fixes").bind (Value.items? Fix.ofValue?) =
      some (d.fixes.map id) := Value.items?_map Fix.ofValue?_document d.fixes
  rw [List.map_id] at hnotes hfixes
  unfold ofValue?
  rw [hlocation, hnotes, hfixes]
  rfl

theorem Report.ofValue?_document (r : Report) : ofValue? r.document = some r.bySeverity := by
  have herrors : (r.document.field? "errors").bind (Value.items? (Diagnostic.ofValue? .error)) =
      some r.bySeverity.errors :=
    Value.items?_map (Diagnostic.ofValue?_document .error) r.errors
  have hwarnings :
      (r.document.field? "warnings").bind (Value.items? (Diagnostic.ofValue? .warning)) =
        some r.bySeverity.warnings :=
    Value.items?_map (Diagnostic.ofValue?_document .warning) r.warnings
  unfold ofValue?
  rw [herrors, hwarnings]
  rfl

/-! ## Texts of reports -/

namespace Report

variable {r s : Report}

/-- The text is longer than the value is deep. -/
theorem length_json (r : Report) : 6 ≤ r.json.length := by
  have hfirst : r.json.take 6 = utf8 "\x7b\"succ" := rfl
  have hlength := List.length_take_le' 6 r.json
  rw [hfirst] at hlength
  exact hlength

theorem ofJson?_json (r : Report) : ofJson? r.json = some r.bySeverity := by
  have hread : Value.read r.json = some r.document := by
    apply Value.read_eq
    obtain ⟨depth, hdepth⟩ := Nat.exists_eq_add_of_le' r.length_json
    rw [hdepth]
    exact r.denotes_json
  rw [ofJson?, hread]
  exact r.ofValue?_document

theorem json_bySeverity (r : Report) : r.bySeverity.json = r.json := by
  unfold json bySeverity
  rw [List.map_map, List.map_map]
  rfl

theorem bySeverity_eq_iff :
    r.bySeverity = s.bySeverity ↔ r.success = s.success ∧
      r.errors.map (Diagnostic.withSeverity .error) =
        s.errors.map (Diagnostic.withSeverity .error) ∧
      r.warnings.map (Diagnostic.withSeverity .warning) =
        s.warnings.map (Diagnostic.withSeverity .warning) := by
  rw [bySeverity, bySeverity, Report.mk.injEq]

theorem json_eq_iff : r.json = s.json ↔ r.bySeverity = s.bySeverity := by
  constructor
  · intro h
    have hread := r.ofJson?_json
    rw [h, s.ofJson?_json] at hread
    exact (Option.some.inj hread).symm
  · intro h
    rw [← json_bySeverity r, h, json_bySeverity s]

theorem space_le_of_mem_json (r : Report) : ∀ b ∈ r.json, Ascii.space ≤ b :=
  have hdenotes : Denotes 6 r.json r.document := r.denotes_json
  hdenotes.printable

theorem untilNul_json (r : Report) : r.json.untilNul = r.json := by
  apply List.takeWhile_eq_self_iff.2
  intro b hb
  rw [bne_iff_ne]
  rintro rfl
  exact absurd (r.space_le_of_mem_json _ hb) (by decide)

/-- A reader of JSON gets a report back from its text, with the severities of the two lists. So two
reports have one text exactly if they have the same flag, and the same errors and warnings up to
severities, whatever bytes are in their texts. No byte of the text is a control byte, and with what
is put in front of it the log has it as one line. -/
theorem json_determines :
    (∀ r : Report, ofJson? r.json = some r.bySeverity) ∧
    (∀ r s : Report, r.json = s.json ↔ r.success = s.success ∧
      r.errors.map (Diagnostic.withSeverity .error) =
        s.errors.map (Diagnostic.withSeverity .error) ∧
      r.warnings.map (Diagnostic.withSeverity .warning) =
        s.warnings.map (Diagnostic.withSeverity .warning)) ∧
    (∀ r : Report, ∀ b ∈ r.json, Ascii.space ≤ b) ∧
    ∀ (o : Options) (r : Report), o.diagJson = true →
      o.reportLine r = utf8 "[eqgen][diag] " ++ r.json ++ [Ascii.newline] ∧
        ∀ b ∈ utf8 "[eqgen][diag] " ++ r.json, Ascii.space ≤ b := by
  refine ⟨ofJson?_json, fun r s => ?_, space_le_of_mem_json, fun o r hlog => ⟨?_, ?_⟩⟩
  · rw [json_eq_iff, bySeverity_eq_iff]
  · rw [Options.reportLine, if_pos hlog, Options.logLine, r.untilNul_json]
    rfl
  · rw [List.forall_mem_append]
    exact ⟨by decide +kernel, r.space_le_of_mem_json⟩

/-- A report whose texts hold quotes, backslashes, control bytes and what looks like JSON. -/
def quotingReport : Report where
  success := false
  errors := [
    { code := [Ascii.quote, Ascii.backslash, 0x00, 0xff], severity := .warning
      message := utf8 "\",\"hint\":\"", hint := utf8 "tab\tand\nline", location := ⟨-1, 1000⟩
      notes := [⟨utf8 "\\u0041", ⟨0, -25⟩⟩, ⟨[], .unknown⟩]
      fixes := [⟨[0x1f], utf8 "[1,2]"⟩]
      declaration := utf8 "app::A" }]

theorem json_determines_quoting :
    ofJson? quotingReport.json = some { quotingReport with
      errors := quotingReport.errors.map (Diagnostic.withSeverity .error) } ∧
    (∀ r : Report, r.json = quotingReport.json → r.errors.map Diagnostic.code =
      [[Ascii.quote, Ascii.backslash, 0x00, 0xff]]) ∧
    ({ diagJson := true } : Options).reportLine quotingReport =
      utf8 "[eqgen][diag] " ++ quotingReport.json ++ [Ascii.newline] := by
  obtain ⟨hread, hdetermines, -, hline⟩ := json_determines
  refine ⟨hread quotingReport, fun r h => ?_, (hline { diagJson := true } quotingReport rfl).1⟩
  obtain ⟨-, herrors, -⟩ := (hdetermines r quotingReport).1 h
  have hcodes := congrArg (List.map Diagnostic.code) herrors
  rw [List.map_map, List.map_map] at hcodes
  exact hcodes

end Report

end Equate
