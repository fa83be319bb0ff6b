/-!
# Sorting

A stable sort by merging: of elements that the order does not tell apart, the earlier one stays in
front. The result holds the same elements, and for a transitive and total order it ascends. It
agrees with `List.mergeSort`, but unfolds to a value wherever the list is known.
-/

namespace Equate

variable {α : Type}

/-! ## Merging -/

/-- Merges a list that starts with `x` into another one, where `rest` merges its remaining
elements. -/
def mergeBehind (le : α → α → Bool) (x : α) (rest : List α → List α) : List α → List α
  | [] => x :: rest []
  | y :: ys => if le x y then x :: rest (y :: ys) else y :: mergeBehind le x rest ys

/-- Merges two ascending lists, the elements of the first in front of their equals. -/
def merge (le : α → α → Bool) : List α → List α → List α
  | [], ys => ys
  | x :: xs, ys => mergeBehind le x (merge le xs) ys

theorem merge_eq (le : α → α → Bool) (xs ys : List α) : merge le xs ys = xs.merge ys le := by
  induction xs generalizing ys with
  | nil => simp [merge]
  | cons x xs ih =>
    induction ys with
    | nil => simp [merge, mergeBehind, ih]
    | cons y ys ih' =>
      rw [List.cons_merge_cons, ← ih' , ← ih]
      rfl

/-! ## Sorting -/

/-- Sorts a list that `n` halvings break into single elements. -/
def sortHalves (le : α → α → Bool) : Nat → List α → List α
  | 0, xs => xs
  | n + 1, xs =>
    let half := (xs.length + 1) / 2
    if xs.length ≤ 1 then xs
    else merge le (sortHalves le n (xs.take half)) (sortHalves le n (xs.drop half))

/-- The elements in ascending order. -/
def sortBy (le : α → α → Bool) (xs : List α) : List α := sortHalves le xs.length xs

theorem sortHalves_eq (le : α → α → Bool) {n : Nat} {xs : List α} (h : xs.length ≤ n) :
    sortHalves le n xs = xs.mergeSort le := by
  induction n generalizing xs with
  | zero => simp [List.eq_nil_of_length_eq_zero (Nat.le_zero.1 h), sortHalves]
  | succ n ih =>
    match xs with
    | [] => simp [sortHalves]
    | [x] => simp [sortHalves]
    | x :: y :: xs =>
      simp only [List.length_cons] at h
      rw [sortHalves, if_neg (by simp), merge_eq, ih (by simp; omega), ih (by simp; omega),
        List.mergeSort]
      simp

theorem sortBy_eq (le : α → α → Bool) (xs : List α) : sortBy le xs = xs.mergeSort le :=
  sortHalves_eq le (Nat.le_refl _)

theorem sortBy_perm (le : α → α → Bool) (xs : List α) : (sortBy le xs).Perm xs :=
  sortBy_eq le xs ▸ List.mergeSort_perm xs le

theorem pairwise_sortBy {le : α → α → Bool} (trans : ∀ a b c, le a b → le b c → le a c)
    (total : ∀ a b, le a b ∨ le b a) (xs : List α) : (sortBy le xs).Pairwise (le · ·) :=
  sortBy_eq le xs ▸ List.pairwise_mergeSort trans (by simpa using total) xs

theorem mem_sortBy {le : α → α → Bool} {x : α} {xs : List α} : x ∈ sortBy le xs ↔ x ∈ xs :=
  (sortBy_perm le xs).mem_iff

end Equate
