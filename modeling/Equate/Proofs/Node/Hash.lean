import Equate.Node.Hash
import Equate.Proofs.Node.SameValue
/-!
# Equal nodes have equal hashes

What makes two nodes equal gives them the same hash as soon as it does so for their children. The
elements of a set are paired up in some order, so the words of one side are a rearrangement of
those of the other, and a sum does not see their order.
-/

namespace Equate.Node

open Multiset

theorem hashes_eq_map (xs : List Node) : hashes xs = xs.map hash := by
  induction xs with
  | nil => rfl
  | cons x xs ih => rw [hashes, ih, List.map_cons]

theorem entryHashes_eq_map (es : List (Node × Node)) :
    entryHashes es = es.map fun e => ((Hasher.start e.1.hash).add e.2.hash).finish := by
  induction es with
  | nil => rfl
  | cons e es ih => rw [entryHashes, ih, List.map_cons]

theorem mixedSum_eq_of_perm {ws vs : List UInt64} (h : ws.Perm vs) :
    mixedSum ws = mixedSum vs := by
  refine h.foldl_eq' (fun x _ y _ sum => ?_) 0
  rw [UInt64.add_assoc, UInt64.add_comm (mix x), ← UInt64.add_assoc]

theorem hash_of_isNil {a : Node} (h : a.isNil = true) : a.hash = nilHash := by
  cases a <;> first | rfl | cases h

theorem map_hash_eq_of_forall₂ {xs ys : List Node}
    (h : List.Forall₂ (fun x y => x.hash = y.hash) xs ys) : xs.map hash = ys.map hash := by
  induction h with
  | nil => rfl
  | cons hxy _ ih => rw [List.map_cons, List.map_cons, hxy, ih]

/-- The hash of a node is made from the hashes of its children. -/
theorem hash_eq_of_agree {a b : Node} (h : Agree (fun x y => x.hash = y.hash) a b) :
    a.hash = b.hash := by
  cases h with
  | same => rfl
  | nil ha hb => rw [hash_of_isNil ha, hash_of_isNil hb]
  | bool | int | str | keyword | symbol => rfl
  | float m n h => rw [hash, hash, Binary64.hashWord_eq_of_eq h]
  | list m n h => rw [hash, hash, hashes_eq_map, hashes_eq_map, map_hash_eq_of_forall₂ h]
  | vector m n h => rw [hash, hash, hashes_eq_map, hashes_eq_map, map_hash_eq_of_forall₂ h]
  | @set m n xs ys h =>
    have hlen : xs.length = ys.length := by simpa using card_eq_card_of_rel h
    have hperm := map_perm_of_rel (f := hash) (g := hash) (fun x _ y _ hxy => hxy) h
    rw [hash, hash, hlen, hashes_eq_map, hashes_eq_map, mixedSum_eq_of_perm hperm]
  | @map m n es fs h =>
    have hlen : es.length = fs.length := by simpa using card_eq_card_of_rel h
    have hperm := map_perm_of_rel (f := fun e => ((Hasher.start e.1.hash).add e.2.hash).finish)
      (g := fun e => ((Hasher.start e.1.hash).add e.2.hash).finish)
      (fun e _ f _ hef => by rw [hef.1, hef.2]) h
    rw [hash, hash, hlen, entryHashes_eq_map, entryHashes_eq_map, mixedSum_eq_of_perm hperm]

theorem SameValue.hash_eq {a b : Node} (h : SameValue a b) : a.hash = b.hash := by
  apply h.least (R := fun a b => a.hash = b.hash)
  intro x y hxy
  exact hash_eq_of_agree hxy

/-- Equal nodes have the same hash. -/
theorem hash_eq_of_equal {a b : Node} (h : a.equal b = true) : a.hash = b.hash :=
  (SameValue.of_equal h).hash_eq

def nan : Node := .float ⟨0, none⟩ ⟨0x7ff8000000000000⟩

/-- A set with two absent elements, a map that has one key twice, and a vector with NaN. -/
def jumble : Node :=
  .set ⟨1, none⟩ [.absent,
    .map ⟨2, none⟩ [(.keyword ⟨3, none⟩ "k", .float ⟨4, none⟩ ⟨0x8000000000000000⟩),
      (.keyword ⟨5, none⟩ "k", nan)],
    .absent, .vector ⟨6, none⟩ [nan, .int ⟨7, none⟩ 1]]

/-- The same with nil for what is absent and a positive zero, all in another order. -/
def jumbleAgain : Node :=
  .set ⟨8, none⟩ [.vector ⟨9, none⟩ [nan, .int ⟨10, none⟩ 1], .nil ⟨11, none⟩,
    .map ⟨12, none⟩ [(.keyword ⟨13, none⟩ "k", nan),
      (.keyword ⟨14, none⟩ "k", .float ⟨15, none⟩ ⟨0⟩)],
    .nil ⟨11, none⟩]

theorem hash_jumble :
    jumble.equal jumbleAgain = true ∧ jumble.hash = jumbleAgain.hash ∧
      jumble.hash ≠ (Node.set ⟨16, none⟩ [.absent, .absent]).hash := by
  have heq : jumble.equal jumbleAgain = true := by decide
  exact ⟨heq, hash_eq_of_equal heq, by decide +kernel⟩

end Equate.Node
