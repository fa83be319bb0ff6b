import Equate.Diagnostic.Basic
/-!
# Reports as JSON

A report is one JSON object on one line. Quotes, backslashes and control bytes are escaped, all
other bytes stand as they are.
-/

namespace Equate.Json

/-- A hexadecimal digit, upper-case. -/
def hexDigit (n : UInt8) : UInt8 := if n < 10 then 0x30 + n else 0x37 + n

/-- A byte inside a JSON string. -/
def escape (b : UInt8) : Bytes :=
  if b = Ascii.quote then utf8 "\\\""
  else if b = Ascii.backslash then utf8 "\\\\"
  else if b = Ascii.newline then utf8 "\\n"
  else if b = Ascii.carriageReturn then utf8 "\\r"
  else if b = Ascii.tab then utf8 "\\t"
  else if b < Ascii.space then utf8 "\\u00" ++ [hexDigit (b / 16), hexDigit (b % 16)]
  else [b]

def string (s : Bytes) : Bytes := Ascii.quote :: s.flatMap escape ++ [Ascii.quote]

def bool (b : Bool) : Bytes := if b then utf8 "true" else utf8 "false"

def array (items : List Bytes) : Bytes :=
  Ascii.leftBracket :: Bytes.join [Ascii.comma] items ++ [Ascii.rightBracket]

/-- An object of keys that need no escapes and of values that are JSON already. -/
def object (fields : List (Bytes × Bytes)) : Bytes :=
  Ascii.leftBrace :: Bytes.join [Ascii.comma] (fields.map fun (key, value) =>
    Ascii.quote :: key ++ [Ascii.quote, Ascii.colon] ++ value) ++ [Ascii.rightBrace]

def location (l : Location) : List (Bytes × Bytes) :=
  [("line", Bytes.ofInt l.line), ("col", Bytes.ofInt l.column)]

def note (n : Note) : Bytes := object (("message", string n.message) :: location n.location)

def fix (f : Fix) : Bytes := object [("key", string f.key), ("title", string f.title)]

def diagnostic (d : Diagnostic) : Bytes :=
  object ([(utf8 "code", string d.code), ("message", string d.message), ("hint", string d.hint)] ++
    location d.location ++ [(utf8 "declaration", string d.declaration),
      ("notes", array (d.notes.map note)), ("fixes", array (d.fixes.map fix))])

end Json

/-- The JSON text of a report. Severities are told by the list a diagnostic stands in. -/
def Report.json (r : Report) : Bytes :=
  Json.object [("success", Json.bool r.success),
    ("errors", Json.array (r.errors.map Json.diagnostic)),
    ("warnings", Json.array (r.warnings.map Json.diagnostic))]

end Equate
