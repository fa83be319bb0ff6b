import Equate.Declaration.Malformation
/-!
# Clauses

The options of a form are clauses `:key value` behind its head. Where a key occurs more than once
the last usable clause counts. What is not a clause ends the walk over the form.
-/

namespace Equate

/-- An option: a key without its colon, and the value. -/
abbrev Clause := Bytes × Node

/-- The clauses of a form with head `head`, and what ended the walk early. -/
def readClauses (head : Bytes) : List Node → List Clause × List Finding
  | [] => ([], [])
  | [k] =>
    match k.keyword? with
    | some key => ([], [⟨.missingValue key, k.location, []⟩])
    | none => ([], [⟨.expectedKeyword head, k.location, []⟩])
  | k :: v :: rest =>
    match k.keyword? with
    | some key =>
      let (clauses, stop) := readClauses head rest
      ((key, v) :: clauses, stop)
    | none => ([], [⟨.expectedKeyword head, k.location, []⟩])

namespace Clause

/-- The values given for a key, in order. -/
def values (key : Bytes) (clauses : List Clause) : List Node :=
  (clauses.filter fun c => c.1 == key).map Prod.snd

/-- The last value given for a key; an absent node is no value. -/
def value? (key : Bytes) (clauses : List Clause) : Option Node :=
  match (values key clauses).getLast? with
  | some .absent => none
  | v? => v?

/-- The last value given for a key, as a name; empty if there is none. -/
def name (key : Bytes) (clauses : List Clause) : Bytes :=
  match value? key clauses with
  | some v => v.name
  | none => []

/-- The last truth value given for a key. -/
def boolean (key : Bytes) (default : Bool) (clauses : List Clause) : Bool :=
  ((values key clauses).filterMap Node.boolean?).getLast?.getD default

/-- The clauses among `keys` whose value is not a truth value. -/
def booleanFindings (keys : List Bytes) (clauses : List Clause) : List Finding :=
  clauses.filterMap fun (key, v) =>
    if keys.contains key && v.boolean?.isNone then some ⟨.notABoolean key, v.location, []⟩
    else none

end Clause

/-- What stands behind the head of a list. -/
def Node.arguments (n : Node) : List Node := (n.listItems?.getD []).drop 1

end Equate
