import Equate.Hash
import Equate.Sequence.Classes
import Equate.Sorting
/-!
# Comparing and hashing sequences

A sequence may be absent. Ordered comparison goes place by place; unordered comparison groups the
elements into classes of equal ones and compares the sizes of the classes. Both come with a way of
folding a sequence into a hash that gives equal sequences the same hash. The classes are gathered
in tables; `equalUnordered_eq` and `hashWords_unordered` say what comes out in terms of `classes`.
-/

namespace Equate

namespace Sequence

variable {α : Type}

/-! ## Equality -/

/-- Equal elements at each place, and no element left over. -/
def equalInOrder (cmp : Comparison α) : List α → List α → Bool
  | [], [] => true
  | x :: xs, y :: ys => cmp.equal x y && equalInOrder cmp xs ys
  | _, _ => false

/-- As many classes on both sides, and each class on the left has its match on the right. -/
def equalUnordered (cmp : Comparison α) (xs ys : List α) : Bool :=
  let left := ClassTable.ofList cmp xs
  let right := ClassTable.ofList cmp ys
  left.classes.size == right.classes.size && left.classes.toList.all (right.hasMatch cmp)

theorem equalUnordered_eq (cmp : Comparison α) (xs ys : List α) :
    equalUnordered cmp xs ys =
      ((classes cmp xs).length == (classes cmp ys).length &&
        (classes cmp xs).all (hasMatch cmp (classes cmp ys))) := by
  have h : (ClassTable.ofList cmp ys).hasMatch cmp = hasMatch cmp (classes cmp ys) := by
    funext c
    rw [ClassTable.hasMatch_eq (ClassTable.indexed_ofList cmp ys), ClassTable.toList_ofList]
  simp only [equalUnordered, ← Array.length_toList, ClassTable.toList_ofList, h]

/-- Equality of two sequences, either of which may be absent. -/
def equal (cmp : Comparison α) (ordered : Bool) : Option (List α) → Option (List α) → Bool
  | none, none => true
  | some xs, some ys => if ordered then equalInOrder cmp xs ys else equalUnordered cmp xs ys
  | _, _ => false

/-- Equality of two sequence objects: one and the same object is equal to itself, whatever its
elements are. -/
def equalObjects (cmp : Comparison α) (ordered sameObject : Bool) (s t : Option (List α)) : Bool :=
  sameObject || equal cmp ordered s t

/-! ## Hash -/

/-- By hash, then by size. -/
def classLe (a b : EqualityClass α) : Bool :=
  a.hash < b.hash || (a.hash == b.hash && a.count ≤ b.count)

/-- The words that a sequence contributes to a hash: nothing if it is absent; if it is ordered its
length and the hash of each element; otherwise hash and size of each class, in ascending order. -/
def hashWords (cmp : Comparison α) (ordered : Bool) : Option (List α) → List UInt64
  | none => []
  | some xs =>
    if ordered then xs.length.toUInt64 :: xs.map cmp.hash
    else
      (sortBy classLe (ClassTable.ofList cmp xs).classes.toList).flatMap fun c =>
        [c.hash, c.count.toUInt64]

theorem hashWords_unordered (cmp : Comparison α) (xs : List α) :
    hashWords cmp false (some xs) =
      (sortBy classLe (classes cmp xs)).flatMap fun c => [c.hash, c.count.toUInt64] := by
  simp [hashWords, ClassTable.toList_ofList]

/-- Folds a sequence into a hash. -/
def addHash (cmp : Comparison α) (ordered : Bool) (h : Hasher) (s : Option (List α)) : Hasher :=
  h.addAll (hashWords cmp ordered s)

end Sequence

end Equate
