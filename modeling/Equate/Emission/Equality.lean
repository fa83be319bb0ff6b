import Equate.Contract.Basic
import Equate.Emission.Layout
import Equate.Hash
/-!
# Generated equality code

The section for a contract: a comment with the evaluation order, a function that compares and a
function that hashes with one statement per entry, the operators, and the hash of the type.
-/

namespace Equate

/-- How generated code compares one member. -/
inductive EqualsStatement where
  | sequence (member : Bytes) (orderMatters deep : Bool)
  | companion (type function member : Bytes)
  | operator (member : Bytes)
  deriving DecidableEq, Repr

/-- How generated code hashes one member. -/
inductive HashStatement where
  | sequence (member : Bytes) (orderMatters deep : Bool)
  | companion (type function member : Bytes)
  | value (member : Bytes)
  deriving DecidableEq, Repr

namespace ContractEntry

/-- The comparison of an entry's member in type `type`. -/
def equalsStatement (type : Bytes) (e : ContractEntry) : EqualsStatement :=
  match e.strategy with
  | .sequence _ orderMatters deep => .sequence e.member.name orderMatters deep
  | .custom _ => .companion type (equalsCompanion e.member.name) e.member.name
  | .include _ | .ignore => .operator e.member.name

/-- The hash of an entry's member in type `type`. A container that is compared by value is hashed
element by element. -/
def hashStatement (type : Bytes) (e : ContractEntry) : HashStatement :=
  match e.strategy with
  | .sequence _ orderMatters deep => .sequence e.member.name orderMatters deep
  | .custom _ => .companion type (hashCompanion e.member.name) e.member.name
  | .include _ | .ignore =>
    if e.member.type.isSequence then .sequence e.member.name true true
    else .value e.member.name

/-- A member and its strategy, as the comment shows them. -/
def summary (e : ContractEntry) : Bytes :=
  let details : Bytes :=
    match e.strategy with
    | .sequence _ orderMatters deep =>
      (if orderMatters then utf8 ", ordered" else utf8 ", unordered") ++
      (if deep then utf8 ", deep" else utf8 ", identity")
    | _ => []
  e.member.name ++ utf8 " (" ++ e.strategy.name ++ details ++ utf8 ")"

end ContractEntry

namespace Emission

def equalsLine : EqualsStatement → Bytes
  | .sequence m orderMatters deep => line [utf8 "    if (!::eqgen::rt::sequence_equal(a.", m,
      utf8 ", b.", m, utf8 ", ", boolLiteral orderMatters, utf8 ", ", boolLiteral deep,
      utf8 ")) return false;"]
  | .companion type function m => line [utf8 "    if (!", type, utf8 "::", function, utf8 "(a.", m,
      utf8 ", b.", m, utf8 ")) return false;"]
  | .operator m => line [utf8 "    if (!(a.", m, utf8 " == b.", m, utf8 ")) return false;"]

def hashLine : HashStatement → Bytes
  | .sequence m orderMatters deep => line [utf8 "    ::eqgen::rt::add_sequence_hash(h, v.", m,
      utf8 ", ", boolLiteral orderMatters, utf8 ", ", boolLiteral deep, utf8 ");"]
  | .companion type function m => line [utf8 "    h.add(static_cast<std::uint64_t>(", type,
      utf8 "::", function, utf8 "(v.", m, utf8 ")));"]
  | .value m => line [utf8 "    h.add(::eqgen::rt::hash_value(v.", m, utf8 "));"]

/-- The entries by their place in the evaluation order. -/
def orderComment (c : Contract) : Bytes :=
  let groups := groupByKey (fun (e : ContractEntry) => e.strategy.order) c.entries
  line [utf8 "// Evaluation order:"] ++
  (if groups.isEmpty then line [utf8 "//   (no members; equality is type identity)"] else []) ++
  groups.flatMap fun (order, entries) =>
    line [utf8 "//   order ", Bytes.ofInt order, utf8 ": ",
      Bytes.join ", " (entries.map ContractEntry.summary)]

def equalsFunction (c : Contract) : Bytes :=
  line [utf8 "inline bool equals_core(const ", c.typeName, utf8 "& a, const ", c.typeName,
    utf8 "& b)"] ++
  utf8 "\x7b\n    if (typeid(a) != typeid(b)) return false;\n" ++
  (c.entries.flatMap fun e => equalsLine (e.equalsStatement c.typeName)) ++
  utf8 "    return true;\n\x7d\n\n"

def hashFunction (c : Contract) : Bytes :=
  line [utf8 "inline std::uint64_t hash_core(const ", c.typeName, utf8 "& v)"] ++
  utf8 "\x7b\n" ++
  line [utf8 "    ::eqgen::rt::hash_builder h(", wordLiteral (fnv1a (spelledName c.ns c.typeName)),
    utf8 ");"] ++
  (c.entries.flatMap fun e => hashLine (e.hashStatement c.typeName)) ++
  utf8 "    return h.finish();\n\x7d\n\n"

def operators (type : Bytes) : Bytes :=
  line [utf8 "inline bool operator==(const ", type, utf8 "& a, const ", type,
    utf8 "& b) \x7b return equals_core(a, b); \x7d"] ++
  line [utf8 "inline bool operator!=(const ", type, utf8 "& a, const ", type,
    utf8 "& b) \x7b return !equals_core(a, b); \x7d"] ++ [Ascii.newline]

/-- The hash of the type for the standard containers; a type in the global namespace is named from
the root. -/
def standardHash (c : Contract) : Bytes :=
  let isGlobal := c.ns.isEmpty
  let name := spelledName c.ns c.typeName
  let type := if isGlobal then utf8 "::" ++ name else name
  utf8 "\nnamespace std \x7b\ntemplate <>\n" ++
  line [utf8 "struct hash<", type, utf8 ">"] ++ utf8 "\x7b\n" ++
  line [utf8 "    std::size_t operator()(const ", type,
    utf8 "& v) const \x7b return static_cast<std::size_t>(",
    (if isGlobal then [] else spelledNamespace c.ns) ++ utf8 "::", utf8 "hash_core(v)); \x7d"] ++
  utf8 "\x7d;\n\x7d // namespace std\n"

end Emission

/-- The generated section of a contract. -/
def Contract.code (c : Contract) : Bytes :=
  Ascii.newline :: Emission.line [utf8 "// ---- ", Emission.spelledName c.ns c.typeName,
    if c.wrapper then utf8 " (wrapper)" else [], utf8 " ----"] ++
  Emission.orderComment c ++ Emission.openNamespace c.ns ++
  Emission.equalsFunction c ++ Emission.hashFunction c ++ Emission.operators c.typeName ++
  Emission.closeNamespace c.ns ++ Emission.standardHash c

end Equate
