import Equate.Node.Basic
/-!
# Types of members

A type is a scalar, text, a sequence of some type, or a name that stands for itself. It is read
from a symbol, from `(ref N)`, or from a sequence head with an element type.
-/

namespace Equate

inductive Scalar where
  | bool | char
  | i8 | i16 | i32 | i64
  | u8 | u16 | u32 | u64
  | f32 | f64
  deriving DecidableEq, Repr

namespace Scalar

def all : List Scalar := [bool, char, i8, i16, i32, i64, u8, u16, u32, u64, f32, f64]

def name : Scalar → Bytes
  | .bool => "bool"
  | .char => "char"
  | .i8 => "i8"
  | .i16 => "i16"
  | .i32 => "i32"
  | .i64 => "i64"
  | .u8 => "u8"
  | .u16 => "u16"
  | .u32 => "u32"
  | .u64 => "u64"
  | .f32 => "f32"
  | .f64 => "f64"

/-- The type in generated code. -/
def cpp : Scalar → Bytes
  | .bool => "bool"
  | .char => "char"
  | .i8 => "std::int8_t"
  | .i16 => "std::int16_t"
  | .i32 => "std::int32_t"
  | .i64 => "std::int64_t"
  | .u8 => "std::uint8_t"
  | .u16 => "std::uint16_t"
  | .u32 => "std::uint32_t"
  | .u64 => "std::uint64_t"
  | .f32 => "float"
  | .f64 => "double"

def ofName? (name : Bytes) : Option Scalar := all.find? fun s => s.name == name

end Scalar

/-- The words that a sequence type can start with. -/
inductive SequenceHead where
  | seq | vector | list | set | array | iterable
  deriving DecidableEq, Repr

namespace SequenceHead

def all : List SequenceHead := [seq, vector, list, set, array, iterable]

def name : SequenceHead → Bytes
  | .seq => "seq"
  | .vector => "vector"
  | .list => "list"
  | .set => "set"
  | .array => "array"
  | .iterable => "iterable"

/-- The container in generated code. -/
def cpp : SequenceHead → Bytes
  | .list => "std::list"
  | .set => "std::set"
  | _ => "std::vector"

def ofName? (name : Bytes) : Option SequenceHead := all.find? fun h => h.name == name

end SequenceHead

inductive TypeForm where
  | scalar (s : Scalar)
  | text
  | sequence (head : SequenceHead) (element : TypeForm)
  | named (name : Bytes)
  deriving DecidableEq, Repr

namespace TypeForm

/-- The type that a symbol stands for. -/
def ofSymbol (s : Bytes) : TypeForm :=
  match Scalar.ofName? s with
  | some known => .scalar known
  | none => if s = utf8 "string" then .text else .named s

/-- Reads a type form. -/
def ofNode? : Node → Option TypeForm
  | .symbol _ s => if s.isEmpty then none else some (ofSymbol s)
  | .list _ [.symbol _ head, x] =>
    if head = utf8 "ref" then if x.name.isEmpty then none else some (.named x.name)
    else
      match SequenceHead.ofName? head, ofNode? x with
      | some h, some element => some (.sequence h element)
      | _, _ => none
  | _ => none
termination_by structural n => n

def isSequence : TypeForm → Bool
  | .sequence _ _ => true
  | _ => false

/-- The scalar, the head of the sequence, or the name. -/
def name : TypeForm → Bytes
  | .scalar s => s.name
  | .text => "string"
  | .sequence head _ => head.name
  | .named n => n

/-- The type as it is written in a declaration. -/
def toText : TypeForm → Bytes
  | .scalar s => s.name
  | .text => "string"
  | .named n => n
  | .sequence head element => utf8 "(" ++ head.name ++ utf8 " " ++ element.toText ++ utf8 ")"

/-- The type in generated code. -/
def cpp : TypeForm → Bytes
  | .scalar s => s.cpp
  | .text => "std::string"
  | .named n => n
  | .sequence head element => head.cpp ++ utf8 "<" ++ element.cpp ++ utf8 ">"

end TypeForm

end Equate
