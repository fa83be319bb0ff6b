/-!
# Caches

A cache remembers a value for each key and counts the searches that found one and those that did
not.
-/

namespace Equate

structure Cache (α : Type) where
  entries : List (UInt64 × α) := []
  hits : Nat := 0
  misses : Nat := 0
  deriving Repr

/-- Replaces the value of a key, or appends a new key. -/
def insertKey {α : Type} (key : UInt64) (value : α) : List (UInt64 × α) → List (UInt64 × α)
  | [] => [(key, value)]
  | e :: es => if e.1 = key then (key, value) :: es else e :: insertKey key value es

namespace Cache

variable {α : Type}

def empty : Cache α := {}

/-- The number of keys. -/
def size (c : Cache α) : Nat := c.entries.length

/-- The value of a key, without counting the search. -/
def value? (c : Cache α) (key : UInt64) : Option α :=
  (c.entries.find? fun e => e.1 == key).map Prod.snd

/-- Searches for a key and counts the search. -/
def find (c : Cache α) (key : UInt64) : Option α × Cache α :=
  match c.value? key with
  | some x => (some x, { c with hits := c.hits + 1 })
  | none => (none, { c with misses := c.misses + 1 })

/-- Remembers a value in place of any other under its key. -/
def store (c : Cache α) (key : UInt64) (value : α) : Cache α :=
  { c with entries := insertKey key value c.entries }

end Cache

end Equate
