import Equate.Diagnostic.Basic
/-!
# Reports as text

One line per diagnostic with its severity, code, message and place, then a line for the hint, each
note and each fix. Errors come before warnings.
-/

namespace Equate

def Severity.text : Severity → Bytes
  | .error => "error"
  | .warning => "warning"

/-- A known place in parentheses; nothing for an unknown one. -/
def Location.suffix (l : Location) : Bytes :=
  if 0 ≤ l.line then
    utf8 " (line " ++ Bytes.ofInt l.line ++ utf8 ":" ++ Bytes.ofInt l.column ++ utf8 ")"
  else []

def Note.text (n : Note) : Bytes :=
  utf8 "  note: " ++ n.message ++ n.location.suffix ++ [Ascii.newline]

def Fix.text (f : Fix) : Bytes :=
  utf8 "  fix: " ++ f.key ++ utf8 " - " ++ f.title ++ [Ascii.newline]

def Diagnostic.text (d : Diagnostic) : Bytes :=
  let code : Bytes := if d.code.isEmpty then [] else utf8 "[" ++ d.code ++ utf8 "]"
  let hint : Bytes := if d.hint.isEmpty then [] else utf8 "  hint: " ++ d.hint ++ [Ascii.newline]
  d.severity.text ++ code ++ utf8 ": " ++ d.message ++ d.location.suffix ++ [Ascii.newline] ++
    hint ++ d.notes.flatMap Note.text ++ d.fixes.flatMap Fix.text

def Report.text (r : Report) : Bytes :=
  r.errors.flatMap Diagnostic.text ++ r.warnings.flatMap Diagnostic.text

end Equate
