import Equate.Proofs.Sequence.Element
import Equate.Proofs.Sequence.Equality
/-!
# Equal sequences have equal hashes

Without regard to order a sequence contributes the keys of its classes, their hashes and sizes, in
ascending order. Classes that pair up have the same keys, and sorting brings the same keys into the
same order, so equal sequences contribute the same words. That a rearrangement of a sequence does
so as well is not a case of this, since a sequence that holds NaN does not even equal itself:
`filter_classes` and `filter_not_classes` take the classes apart into those of elements that equal
themselves, which pair up, and those of the others, each of which is alone in its class.
-/

namespace Equate

variable {α : Type} {cmp : Comparison α}

/-- Whether an element equals itself. -/
def Comparison.equalsSelf (cmp : Comparison α) (x : α) : Bool := cmp.equal x x

namespace Sequence

open Multiset

/-! ## Keys of classes -/

/-- What a class contributes to a hash. -/
def classKey (c : EqualityClass α) : UInt64 × Nat := (c.hash, c.count)

/-- The order of classes sees no more of a class than it contributes. -/
theorem classLe_iff {c d : EqualityClass α} :
    classLe c d = true ↔
      (classKey c).1.toNat < (classKey d).1.toNat ∨
        (classKey c).1.toNat = (classKey d).1.toNat ∧ (classKey c).2 ≤ (classKey d).2 := by
  simp [classLe, classKey, UInt64.lt_iff_toNat_lt, ← UInt64.toNat_inj]

theorem pairwise_classLe (cs : List (EqualityClass α)) :
    (sortBy classLe cs).Pairwise (classLe · ·) := by
  refine pairwise_sortBy ?_ ?_ cs
  · intro a b c hab hbc
    rw [classLe_iff] at hab hbc ⊢
    omega
  · intro a b
    rw [classLe_iff, classLe_iff]
    omega

/-- Sorted classes contribute the same if they did in some order before. -/
theorem map_classKey_eq_of_sorted {cs ds : List (EqualityClass α)}
    (hcs : cs.Pairwise (classLe · ·)) (hds : ds.Pairwise (classLe · ·))
    (h : (cs.map classKey).Perm (ds.map classKey)) : cs.map classKey = ds.map classKey := by
  have hsorted {es : List (EqualityClass α)} (hes : es.Pairwise (classLe · ·)) :
      (es.map classKey).Pairwise fun a b : UInt64 × Nat =>
        a.1.toNat < b.1.toNat ∨ a.1.toNat = b.1.toNat ∧ a.2 ≤ b.2 := by
    rw [List.pairwise_map]
    exact hes.imp fun hab => classLe_iff.1 hab
  refine List.Perm.eq_of_pairwise ?_ (hsorted hcs) (hsorted hds) h
  rintro ⟨a, m⟩ ⟨b, n⟩ - - hab hba
  simp only at hab hba
  rw [Prod.mk.injEq, ← UInt64.toNat_inj]
  omega

/-- However classes with the keys of a sequence are sorted, they contribute its words. -/
theorem hashWords_eq_of_sorted {xs : List α} {cs : List (EqualityClass α)}
    (hkeys : (cs.map classKey).Perm ((classes cmp xs).map classKey))
    (hsorted : cs.Pairwise (classLe · ·)) :
    hashWords cmp false (some xs) = cs.flatMap fun c => [c.hash, c.count.toUInt64] := by
  have hwords (es : List (EqualityClass α)) :
      (es.flatMap fun c => [c.hash, c.count.toUInt64]) =
        (es.map classKey).flatMap fun k => [k.1, k.2.toUInt64] := by
    rw [List.flatMap_map]
    rfl
  have hperm := ((sortBy_perm classLe (classes cmp xs)).map classKey).trans hkeys.symm
  rw [hashWords_unordered, hwords, hwords cs,
    map_classKey_eq_of_sorted (pairwise_classLe _) hsorted hperm]

/-- Classes with the same keys contribute the same words. -/
theorem hashWords_eq_of_keys {xs ys : List α}
    (h : ((classes cmp xs).map classKey).Perm ((classes cmp ys).map classKey)) :
    hashWords cmp false (some xs) = hashWords cmp false (some ys) := by
  rw [hashWords_unordered cmp ys]
  exact hashWords_eq_of_sorted (((sortBy_perm classLe _).map classKey).trans h.symm)
    (pairwise_classLe _)

/-- Sequences that pair up have classes with the same keys. -/
theorem map_classKey_perm_of_rel (hc : cmp.Consistent) {xs ys : List α}
    (h : Rel (fun x y => cmp.equal x y = true) (xs : Multiset α) ys) :
    ((classes cmp xs).map classKey).Perm ((classes cmp ys).map classKey) :=
  map_perm_of_rel (fun _ _ _ _ hcd => Prod.ext hcd.hash hcd.count)
    ((equalUnordered_iff_twins hc).1 ((equalUnordered_iff_rel hc).2 h))

/-! ## Equal sequences -/

/-- Equal sequences contribute the same words to a hash. -/
theorem hashWords_eq_of_equal (hc : cmp.Consistent) {ordered : Bool} {s t : Option (List α)}
    (h : equal cmp ordered s t = true) : hashWords cmp ordered s = hashWords cmp ordered t := by
  rcases s with _ | xs <;> rcases t with _ | ys <;> try cases h
  · rfl
  cases ordered
  · exact hashWords_eq_of_keys (map_classKey_perm_of_rel hc ((equalUnordered_iff_rel hc).1 h))
  · have hxy := equalInOrder_iff.1 (show equalInOrder cmp xs ys = true from h)
    have hmap := List.forall₂_eq_eq_eq ▸ List.forall₂_map_left_iff.2
      (List.forall₂_map_right_iff.2 (hxy.imp fun _ _ hab => hc.hash_eq hab))
    simp only [hashWords, if_true, hxy.length_eq, hmap]

/-! ## Elements that differ from themselves -/

/-- A class takes only elements that equal themselves, and its representative does so too. -/
theorem equalsSelf_of_admits (hc : cmp.Consistent) {c : EqualityClass α} {x : α} {h : UInt64}
    (hadm : c.admits cmp x h = true) :
    cmp.equalsSelf c.representative = true ∧ cmp.equalsSelf x = true := by
  have hcx := (Bool.and_eq_true_iff.1 hadm).2
  exact ⟨hc.trans hcx (hc.symm hcx), hc.trans (hc.symm hcx) hcx⟩

theorem addToClass_of_not_equalsSelf (hc : cmp.Consistent) {x : α}
    (hx : cmp.equalsSelf x = false) (h : UInt64) (cs : List (EqualityClass α)) :
    addToClass cmp x h cs = cs ++ [⟨x, h, 1⟩] := by
  rcases addToClass_cases cmp x h cs with ⟨front, c, back, -, hadm, -⟩ | ⟨-, heq⟩
  · rw [(equalsSelf_of_admits hc hadm).2] at hx
    cases hx
  · exact heq

/-- An element that equals itself goes past the classes of those that do not. -/
theorem filter_addToClass (hc : cmp.Consistent) {x : α} (hx : cmp.equalsSelf x = true) (h : UInt64)
    (cs : List (EqualityClass α)) :
    (addToClass cmp x h cs).filter (fun c => cmp.equalsSelf c.representative) =
      addToClass cmp x h (cs.filter fun c => cmp.equalsSelf c.representative) := by
  induction cs with
  | nil => simp [addToClass, hx]
  | cons c cs ih =>
    by_cases hadm : c.admits cmp x h = true
    · -- the class that grows is not among those left out
      have hself := (equalsSelf_of_admits hc hadm).1
      simp [addToClass, hadm, hself, EqualityClass.grow]
    · by_cases hself : cmp.equalsSelf c.representative = true
      · simp [addToClass, hadm, hself, ih]
      · simp [addToClass, hadm, hself, ih]

theorem filter_not_addToClass (hc : cmp.Consistent) {x : α} (hx : cmp.equalsSelf x = true)
    (h : UInt64) (cs : List (EqualityClass α)) :
    (addToClass cmp x h cs).filter (fun c => !cmp.equalsSelf c.representative) =
      cs.filter fun c => !cmp.equalsSelf c.representative := by
  rcases addToClass_cases cmp x h cs with ⟨front, c, back, rfl, hadm, heq⟩ | ⟨-, heq⟩
  · rw [heq]
    simp [(equalsSelf_of_admits hc hadm).1, EqualityClass.grow]
  · rw [heq]
    simp [hx]

/-- Elements that differ from themselves have no part in the classes of the others. -/
theorem filter_classes (hc : cmp.Consistent) (xs : List α) :
    (classes cmp xs).filter (fun c => cmp.equalsSelf c.representative) =
      classes cmp (xs.filter cmp.equalsSelf) := by
  induction xs using List.reverseRecOn with
  | nil => rfl
  | append_singleton xs x ih =>
    rw [classes_append_singleton, List.filter_append]
    by_cases hx : cmp.equalsSelf x = true
    · simp [filter_addToClass hc hx, ih, hx, classes_append_singleton]
    · rw [addToClass_of_not_equalsSelf hc (Bool.eq_false_of_not_eq_true hx), List.filter_append]
      simp [ih, hx]

/-- Each of them makes a class of its own. -/
theorem filter_not_classes (hc : cmp.Consistent) (xs : List α) :
    (classes cmp xs).filter (fun c => !cmp.equalsSelf c.representative) =
      (xs.filter fun x => !cmp.equalsSelf x).map fun x => ⟨x, cmp.hash x, 1⟩ := by
  induction xs using List.reverseRecOn with
  | nil => rfl
  | append_singleton xs x ih =>
    rw [classes_append_singleton, List.filter_append]
    by_cases hx : cmp.equalsSelf x = true
    · simp [filter_not_addToClass hc hx, ih, hx]
    · rw [addToClass_of_not_equalsSelf hc (Bool.eq_false_of_not_eq_true hx), List.filter_append]
      simp [ih, hx]

/-! ## Rearranged sequences -/

theorem map_classKey_perm_filter (hc : cmp.Consistent) (xs : List α) :
    ((classes cmp xs).map classKey).Perm
      ((classes cmp (xs.filter cmp.equalsSelf)).map classKey ++
        (xs.filter fun x => !cmp.equalsSelf x).map fun x => (cmp.hash x, 1)) := by
  have h := (List.filter_append_perm (fun c => cmp.equalsSelf c.representative)
    (classes cmp xs)).symm.map classKey
  rw [filter_classes hc, filter_not_classes hc, List.map_append, List.map_map] at h
  exact h

/-- The keys of its classes do not depend on the order of a sequence. -/
theorem map_classKey_perm (hc : cmp.Consistent) {xs ys : List α} (h : xs.Perm ys) :
    ((classes cmp xs).map classKey).Perm ((classes cmp ys).map classKey) := by
  -- the elements that equal themselves pair up, each with itself
  have hself : Rel (fun x y => cmp.equal x y = true)
      ((xs.filter cmp.equalsSelf : List α) : Multiset α) (ys.filter cmp.equalsSelf : List α) := by
    rw [← Multiset.coe_eq_coe.2 (h.filter cmp.equalsSelf)]
    exact rel_refl_of_refl_on fun x hx => (List.mem_filter.1 (Multiset.mem_coe.1 hx)).2
  refine (map_classKey_perm_filter hc xs).trans (.trans ?_ (map_classKey_perm_filter hc ys).symm)
  apply List.Perm.append
  · exact map_classKey_perm_of_rel hc hself
  · exact (h.filter _).map _

theorem hashWords_eq_of_equalObjects (hc : cmp.Consistent) {ordered sameObject : Bool}
    {s t : Option (List α)} (hobject : sameObject = true → s = t)
    (h : equalObjects cmp ordered sameObject s t = true) :
    hashWords cmp ordered s = hashWords cmp ordered t := by
  rcases Bool.or_eq_true_iff.1 h with hsame | h
  · rw [hobject hsame]
  · exact hashWords_eq_of_equal hc h

end Sequence

/-! ## Hashers -/

open Sequence in
/-- Sequences are hashed as they are compared: equal ones leave a hasher in the same state, and
without regard to order so do rearrangements of one sequence, however its classes are sorted. -/
structure Comparison.HashesSequences (cmp : Comparison α) : Prop where
  equal (h : Hasher) (ordered sameObject : Bool) (s t : Option (List α))
    (hobject : sameObject = true → s = t) (heq : equalObjects cmp ordered sameObject s t = true) :
    addHash cmp ordered h s = addHash cmp ordered h t
  perm (h : Hasher) (xs ys : List α) (hperm : xs.Perm ys) :
    addHash cmp false h (some xs) = addHash cmp false h (some ys)
  sorted (h : Hasher) (xs : List α) (cs : List (EqualityClass α))
    (hperm : cs.Perm (classes cmp xs)) (hsorted : cs.Pairwise (classLe · ·)) :
    addHash cmp false h (some xs) = h.addAll (cs.flatMap fun c => [c.hash, c.count.toUInt64])

namespace Sequence

/-- Every consistent comparison hashes sequences as it compares them, and the comparisons of
elements are among them. -/
theorem hashesSequences_of_consistent :
    (∀ {α : Type} {cmp : Comparison α}, cmp.Consistent → cmp.HashesSequences) ∧
      ∀ deep, (Element.comparison deep).HashesSequences := by
  have h {α : Type} {cmp : Comparison α} (hc : cmp.Consistent) : cmp.HashesSequences := by
    constructor
    · intro h ordered sameObject s t hobject heq
      exact congrArg h.addAll (hashWords_eq_of_equalObjects hc hobject heq)
    · intro h xs ys hperm
      exact congrArg h.addAll (hashWords_eq_of_keys (map_classKey_perm hc hperm))
    · intro h xs cs hperm hsorted
      exact congrArg h.addAll (hashWords_eq_of_sorted (hperm.map classKey) hsorted)
  exact ⟨h, fun deep => h (Element.comparison_consistent deep)⟩

/-- Pointers to NaN twice over, null and a negative zero. -/
def scattered : List Element :=
  [.pointer 1 (.double ⟨0x7ff8000000000000⟩), .null, .pointer 2 (.double ⟨0x8000000000000000⟩),
    .pointer 3 (.double ⟨0x7ff8000000000000⟩), .null]

theorem hashesSequences_scattered :
    remainders.Consistent ∧
      equalObjects remainders false false (some [0, 2, 4, 6, 1]) (some [7, 8, 12, 10, 0]) = true ∧
      equalObjects (Element.comparison true) false false (some scattered) (some scattered) = false ∧
      ∀ h : Hasher,
        addHash remainders false h (some [0, 2, 4, 6, 1]) =
          addHash remainders false h (some [7, 8, 12, 10, 0]) ∧
        addHash (Element.comparison true) false h (some scattered) =
          addHash (Element.comparison true) false h (some scattered.reverse) := by
  have heq : equalObjects remainders false false (some [0, 2, 4, 6, 1]) (some [7, 8, 12, 10, 0]) =
      true := by decide
  refine ⟨remainders_lawful.toConsistent, heq, by decide, fun h => ⟨?_, ?_⟩⟩
  · have hwords := hashesSequences_of_consistent.1 remainders_lawful.toConsistent
    exact hwords.equal h false false _ _ nofun heq
  · have helements := hashesSequences_of_consistent.2 true
    exact helements.perm h _ _ (List.reverse_perm scattered).symm

end Sequence

end Equate
