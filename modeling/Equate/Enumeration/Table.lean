import Std.Data.TreeMap
import Equate.Declaration.Basic
/-!
# Enumeration tables

The constants of an enumeration, to be looked up by value or by name. A look-up goes through an
index, which is built entry by entry: of entries that share a value or a name the first one is
found.
-/

namespace Equate

structure TableEntry where
  /-- The qualified name of the enumeration. -/
  owner : Bytes
  constant : Bytes
  value : Int64
  name : Bytes
  /-- The place among all constants of the enumeration. -/
  position : Nat
  deriving DecidableEq, Repr

/-- The place of an entry for each key. A key that was entered before keeps its place. -/
def TableEntry.index {κ : Type} [Ord κ] (key : TableEntry → κ) (entries : List TableEntry) :
    Std.TreeMap κ Nat :=
  entries.zipIdx.foldl (fun places (e, i) => places.insertIfNew (key e) i) {}

structure LookupTable where
  typeName : Bytes
  ns : Bytes := []
  /-- The constants with literal arguments. -/
  entries : List TableEntry := []
  /-- All constants, literal or not. -/
  constants : List Bytes := []
  deriving DecidableEq, Repr

/-- Why a look-up fails. -/
inductive LookupError where
  | noValue (table : Bytes) (value : Int64)
  | noName (table name : Bytes)
  deriving DecidableEq, Repr

/-- The message; it ends early at a NUL byte. -/
def LookupError.message (e : LookupError) : Bytes :=
  Bytes.untilNul <|
    match e with
    | .noValue table value =>
      utf8 "no " ++ table ++ utf8 " constant with value " ++ Bytes.ofInt value.toInt
    | .noName table name => utf8 "no " ++ table ++ utf8 " constant named '" ++ name ++ utf8 "'"

namespace LookupTable

def qualifiedName (t : LookupTable) : Bytes := Equate.qualifiedName t.ns t.typeName

/-- The entry that an index by `key` leads to. -/
def findBy? {κ : Type} [Ord κ] (t : LookupTable) (key : TableEntry → κ) (k : κ) :
    Option TableEntry :=
  (TableEntry.index key t.entries)[k]?.bind fun i => t.entries[i]?

def findValue? (t : LookupTable) (value : Int64) : Option TableEntry :=
  t.findBy? TableEntry.value value

def findName? (t : LookupTable) (name : Bytes) : Option TableEntry :=
  t.findBy? TableEntry.name name

def findValue (t : LookupTable) (value : Int64) : Except LookupError TableEntry :=
  match t.findValue? value with
  | some e => .ok e
  | none => .error (.noValue t.qualifiedName value)

def findName (t : LookupTable) (name : Bytes) : Except LookupError TableEntry :=
  match t.findName? name with
  | some e => .ok e
  | none => .error (.noName t.qualifiedName name)

end LookupTable

end Equate
