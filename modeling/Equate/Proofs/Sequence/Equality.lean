import Equate.Proofs.Pairing
import Equate.Proofs.Sequence.Classes
import Equate.Sequence.Basic
/-!
# Equality of sequences

Two sequences are equal without regard to order if their classes pair up: `equalUnordered_iff_twins`
needs only a comparison that is consistent, and from it come symmetry and transitivity. Classes pair
up exactly if the elements do, so this is equality of multisets (`equalUnordered_iff_rel`) and the
hash of the elements has no say in it (`equal_congr`).
-/

namespace Equate.Sequence

open Multiset

variable {α : Type} {cmp : Comparison α}

/-! ## In order -/

theorem equalInOrder_iff {xs ys : List α} :
    equalInOrder cmp xs ys = true ↔ List.Forall₂ (fun x y => cmp.equal x y = true) xs ys := by
  induction xs generalizing ys with
  | nil => cases ys <;> simp [equalInOrder]
  | cons x xs ih => cases ys <;> simp [equalInOrder, ih]

/-! ## Classes that pair up -/

/-- Classes of elements that equal each other, as many here as there. -/
structure Twin (cmp : Comparison α) (c d : EqualityClass α) : Prop where
  equal : cmp.equal c.representative d.representative = true
  hash : c.hash = d.hash
  count : c.count = d.count

theorem Twin.symm (hc : cmp.Consistent) {c d : EqualityClass α} (h : Twin cmp c d) :
    Twin cmp d c :=
  ⟨hc.symm h.equal, h.hash.symm, h.count.symm⟩

theorem Twin.trans (hc : cmp.Consistent) {c d e : EqualityClass α} (hcd : Twin cmp c d)
    (hde : Twin cmp d e) : Twin cmp c e :=
  ⟨hc.trans hcd.equal hde.equal, hcd.hash.trans hde.hash, hcd.count.trans hde.count⟩

/-- No class is the twin of two classes of one sequence. -/
theorem pairwise_not_twin (hc : cmp.Consistent) (xs : List α) :
    (classes cmp xs).Pairwise fun c c' => ∀ d, Twin cmp c d → ¬ Twin cmp c' d := by
  refine (partition_classes hc xs).apart.imp fun {c c'} happart d hd hd' => ?_
  rw [hc.trans hd.equal (hc.symm hd'.equal)] at happart
  cases happart

theorem exists_twin_of_hasMatch (hc : cmp.Consistent) {others : List (EqualityClass α)}
    {c : EqualityClass α} (h : hasMatch cmp others c = true) : ∃ d ∈ others, Twin cmp c d := by
  rw [hasMatch] at h
  split at h
  · rename_i d hd
    have hadm := List.find?_some hd
    rw [EqualityClass.admits, Bool.and_eq_true, beq_iff_eq] at hadm
    exact ⟨d, List.mem_of_find?_eq_some hd, hc.symm hadm.2, hadm.1.symm, (beq_iff_eq.1 h).symm⟩
  · cases h

theorem hasMatch_of_twin (hc : cmp.Consistent) {ys : List α} {c d : EqualityClass α}
    (hd : d ∈ classes cmp ys) (h : Twin cmp c d) : hasMatch cmp (classes cmp ys) c = true := by
  have hadm : d.admits cmp c.representative c.hash = true := by
    simp [EqualityClass.admits, h.hash, hc.symm h.equal]
  obtain ⟨e, he⟩ := Option.isSome_iff_exists.1 (List.find?_isSome.2 ⟨d, hd, hadm⟩)
  have hadm' := List.find?_some he
  rw [EqualityClass.admits, Bool.and_eq_true] at hadm'
  have hed : e = d := (partition_classes hc ys).eq_of_equal hc (List.mem_of_find?_eq_some he) hd
    hadm'.2 (hc.symm h.equal)
  rw [hasMatch, he, hed]
  exact beq_iff_eq.2 h.count.symm

theorem equalUnordered_iff_twins (hc : cmp.Consistent) {xs ys : List α} :
    equalUnordered cmp xs ys = true ↔
      Rel (Twin cmp) (classes cmp xs : Multiset (EqualityClass α)) (classes cmp ys) := by
  rw [equalUnordered_eq, Bool.and_eq_true, beq_iff_eq, List.all_eq_true]
  constructor
  · rintro ⟨hlen, hall⟩
    exact rel_of_partners hlen (fun c hcm => exists_twin_of_hasMatch hc (hall c hcm))
      (pairwise_not_twin hc xs)
  · intro h
    refine ⟨by simpa using card_eq_card_of_rel h, fun c hcm => ?_⟩
    obtain ⟨d, hd, hcd⟩ := exists_mem_of_rel_of_mem h (Multiset.mem_coe.2 hcm)
    exact hasMatch_of_twin hc (Multiset.mem_coe.1 hd) hcd

/-! ## Classes and counts -/

theorem Partition.countP_eq (hc : cmp.Consistent) {xs : List α} {cs : List (EqualityClass α)}
    (hp : Partition cmp xs cs) {c : EqualityClass α} (hcm : c ∈ cs) {z : α}
    (hz : cmp.equal z c.representative = true) : xs.countP (cmp.equal z) = c.count := by
  rw [hp.count c hcm (hc.trans (hc.symm hz) hz)]
  refine List.countP_congr fun x _ => ?_
  exact ⟨hc.trans (hc.symm hz), hc.trans hz⟩

theorem Partition.exists_of_countP (hc : cmp.Consistent) {xs : List α}
    {cs : List (EqualityClass α)} (hp : Partition cmp xs cs) {z : α}
    (hz : xs.countP (cmp.equal z) ≠ 0) : ∃ c ∈ cs, cmp.equal z c.representative = true := by
  obtain ⟨x, hx, hzx⟩ := List.countP_pos_iff.1 (Nat.pos_of_ne_zero hz)
  obtain ⟨c, hcm, rfl | hcx⟩ := hp.cover x hx
  · exact ⟨c, hcm, hzx⟩
  · exact ⟨c, hcm, hc.trans hzx (hc.symm hcx)⟩

theorem countP_eq_of_twins (hc : cmp.Consistent) {xs ys : List α}
    (h : Rel (Twin cmp) (classes cmp xs : Multiset (EqualityClass α)) (classes cmp ys)) (z : α) :
    xs.countP (cmp.equal z) = ys.countP (cmp.equal z) := by
  have hxs := partition_classes hc xs
  have hys := partition_classes hc ys
  by_cases hx : xs.countP (cmp.equal z) = 0
  · by_contra hne
    -- a class on the right would have a twin on the left
    obtain ⟨d, hd, hzd⟩ := hys.exists_of_countP hc (z := z) (by omega)
    obtain ⟨c, hcm, hdc⟩ := exists_mem_of_rel_of_mem (rel_flip.2 h) (Multiset.mem_coe.2 hd)
    rw [hxs.countP_eq hc hcm (hc.trans hzd (hc.symm hdc.equal)), hys.countP_eq hc hd hzd] at hne
    exact hne hdc.count
  · obtain ⟨c, hcm, hzc⟩ := hxs.exists_of_countP hc hx
    obtain ⟨d, hd, hcd⟩ := exists_mem_of_rel_of_mem h (Multiset.mem_coe.2 hcm)
    rw [hxs.countP_eq hc hcm hzc, hys.countP_eq hc hd (hc.trans hzc hcd.equal), hcd.count]

theorem exists_twin_of_countP (hc : cmp.Consistent) {xs ys : List α}
    (hself : ∀ x ∈ xs, cmp.equal x x = true)
    (h : ∀ z, xs.countP (cmp.equal z) = ys.countP (cmp.equal z)) {c : EqualityClass α}
    (hcm : c ∈ classes cmp xs) : ∃ d ∈ classes cmp ys, Twin cmp c d := by
  have hxs := partition_classes hc xs
  have hys := partition_classes hc ys
  have hself := hself c.representative (hxs.mem c hcm)
  have hcount := hxs.countP_eq hc hcm hself
  have hpos : ys.countP (cmp.equal c.representative) ≠ 0 := by
    rw [← h, ← Nat.pos_iff_ne_zero, List.countP_pos_iff]
    exact ⟨c.representative, hxs.mem c hcm, hself⟩
  obtain ⟨d, hd, hcd⟩ := hys.exists_of_countP hc hpos
  refine ⟨d, hd, hcd, ?_, ?_⟩
  · rw [hxs.hash c hcm, hys.hash d hd, hc.hash_eq hcd]
  · rw [← hcount, h, hys.countP_eq hc hd hcd]

theorem length_classes_le (hc : cmp.Consistent) {xs ys : List α}
    (hself : ∀ x ∈ xs, cmp.equal x x = true)
    (h : ∀ z, xs.countP (cmp.equal z) = ys.countP (cmp.equal z)) :
    (classes cmp xs).length ≤ (classes cmp ys).length := by
  obtain ⟨t, hle, hrel⟩ := exists_rel_le (t := (classes cmp ys : Multiset (EqualityClass α)))
    (fun c hcm => exists_twin_of_countP hc hself h hcm) (pairwise_not_twin hc xs)
  have hcard := card_eq_card_of_rel hrel
  have hle := Multiset.card_le_card hle
  rw [Multiset.coe_card] at hcard hle
  omega

theorem self_of_twins (hc : cmp.Consistent) {xs ys : List α}
    (h : Rel (Twin cmp) (classes cmp xs : Multiset (EqualityClass α)) (classes cmp ys)) :
    ∀ x ∈ xs, cmp.equal x x = true := by
  intro x hx
  obtain ⟨c, hcm, hcx⟩ := (partition_classes hc xs).cover x hx
  obtain ⟨d, -, hcd⟩ := exists_mem_of_rel_of_mem h (Multiset.mem_coe.2 hcm)
  rcases hcx with rfl | hcx
  · exact hc.trans hcd.equal (hc.symm hcd.equal)
  · exact hc.trans (hc.symm hcx) hcx

/-- Unordered equality is equality of multisets, also where elements differ from themselves. -/
theorem equalUnordered_iff_rel (hc : cmp.Consistent) {xs ys : List α} :
    equalUnordered cmp xs ys = true ↔
      Rel (fun x y => cmp.equal x y = true) (xs : Multiset α) ys := by
  have hsymm (x y : α) : cmp.equal x y = true → cmp.equal y x = true := hc.symm
  have htrans (x y z : α) : cmp.equal x y = true → cmp.equal y z = true → cmp.equal x z = true :=
    hc.trans
  rw [equalUnordered_iff_twins hc]
  constructor
  · intro h
    -- what has a twin equals itself, on either side
    have hflip : Rel (Twin cmp) (classes cmp ys : Multiset (EqualityClass α)) (classes cmp xs) :=
      rel_flip.1 (h.mono fun c _ d _ hcd => hcd.symm hc)
    exact (rel_iff_countP_eq hsymm htrans (self_of_twins hc h) (self_of_twins hc hflip)).2
      (countP_eq_of_twins hc h)
  · intro h
    obtain ⟨hxs, hys⟩ := self_of_rel hsymm htrans h
    have hcount := countP_eq_of_rel hsymm htrans h
    have hlen := Nat.le_antisymm (length_classes_le hc hxs hcount)
      (length_classes_le hc hys fun z => (hcount z).symm)
    exact rel_of_partners hlen (fun c hcm => exists_twin_of_countP hc hxs hcount hcm)
      (pairwise_not_twin hc xs)

/-! ## Equality of sequences -/

theorem equal_symm (hc : cmp.Consistent) {ordered : Bool} {s t : Option (List α)}
    (h : equal cmp ordered s t = true) : equal cmp ordered t s = true := by
  rcases s with _ | xs <;> rcases t with _ | ys <;> try exact h
  cases ordered
  · have htwins := (equalUnordered_iff_twins hc).1 (show equalUnordered cmp xs ys = true from h)
    refine (equalUnordered_iff_twins hc).2 (rel_flip.1 ?_)
    exact htwins.mono fun c _ d _ hcd => hcd.symm hc
  · have hxy := equalInOrder_iff.1 (show equalInOrder cmp xs ys = true from h)
    exact equalInOrder_iff.2 (hxy.imp fun _ _ => hc.symm).flip

theorem equal_trans (hc : cmp.Consistent) {ordered : Bool} {s t u : Option (List α)}
    (hst : equal cmp ordered s t = true) (htu : equal cmp ordered t u = true) :
    equal cmp ordered s u = true := by
  rcases s with _ | xs <;> rcases t with _ | ys <;> try cases hst
  · exact htu
  rcases u with _ | zs
  · cases htu
  cases ordered
  · have hxy := (equalUnordered_iff_twins hc).1 (show equalUnordered cmp xs ys = true from hst)
    have hyz := (equalUnordered_iff_twins hc).1 (show equalUnordered cmp ys zs = true from htu)
    have : IsTrans (EqualityClass α) (Twin cmp) := ⟨fun _ _ _ => Twin.trans hc⟩
    exact (equalUnordered_iff_twins hc).2 (Rel.trans _ hxy hyz)
  · have hxy := equalInOrder_iff.1 (show equalInOrder cmp xs ys = true from hst)
    have hyz := equalInOrder_iff.1 (show equalInOrder cmp ys zs = true from htu)
    refine equalInOrder_iff.2 (forall₂_trans ?_ hxy hyz)
    exact fun _ _ _ => hc.trans

/-- The hash of the elements has no say in whether sequences are equal. -/
theorem equal_congr {cmp' : Comparison α} (hc : cmp.Lawful) (hc' : cmp'.Lawful)
    (h : cmp.equal = cmp'.equal) (ordered : Bool) (s t : Option (List α)) :
    equal cmp ordered s t = equal cmp' ordered s t := by
  rcases s with _ | xs <;> rcases t with _ | ys <;> try rfl
  rw [Bool.eq_iff_iff]
  cases ordered
  · show equalUnordered cmp xs ys = true ↔ equalUnordered cmp' xs ys = true
    rw [equalUnordered_iff_rel hc.toConsistent, equalUnordered_iff_rel hc'.toConsistent, h]
  · show equalInOrder cmp xs ys = true ↔ equalInOrder cmp' xs ys = true
    rw [equalInOrder_iff, equalInOrder_iff, h]

/-! ## Lawful comparisons -/

theorem equal_refl (hc : cmp.Lawful) (ordered : Bool) (s : Option (List α)) :
    equal cmp ordered s s = true := by
  rcases s with _ | xs
  · rfl
  cases ordered
  · exact (equalUnordered_iff_rel hc.toConsistent).2 (rel_refl_of_refl_on fun x _ => hc.refl x)
  · exact equalInOrder_iff.2 (List.forall₂_same.2 fun x _ => hc.refl x)

/-- Whether two sequences are one object does not matter if every element equals itself. -/
theorem equalObjects_iff (hc : cmp.Lawful) {ordered sameObject : Bool} {s t : Option (List α)}
    (hobject : sameObject = true → s = t) :
    equalObjects cmp ordered sameObject s t = true ↔ equal cmp ordered s t = true := by
  rw [equalObjects, Bool.or_eq_true]
  refine ⟨fun h => h.elim (fun hsame => ?_) id, .inr⟩
  rw [hobject hsame]
  exact equal_refl hc ordered t

/-- Without regard to order, sequences are equal exactly if a bijection between their positions
pairs equal elements, which is to say that they have as many elements of each class. An absent
sequence equals only an absent one. -/
theorem equal_unordered_iff_bijection (hc : cmp.Lawful) :
    (∀ (sameObject : Bool) (xs ys : List α), (sameObject = true → xs = ys) →
      (equalObjects cmp false sameObject (some xs) (some ys) = true ↔
        ∃ σ : Fin xs.length ≃ Fin ys.length, ∀ i, cmp.equal (xs.get i) (ys.get (σ i)) = true) ∧
      (equalObjects cmp false sameObject (some xs) (some ys) = true ↔
        ∀ x, xs.countP (cmp.equal x) = ys.countP (cmp.equal x))) ∧
    (∀ ordered sameObject, equalObjects cmp ordered sameObject none none = true) ∧
    ∀ ordered (xs : List α), equalObjects cmp ordered false none (some xs) = false ∧
      equalObjects cmp ordered false (some xs) none = false := by
  refine ⟨?_, ?_, ?_⟩
  · intro sameObject xs ys hobject
    have hrel : equalObjects cmp false sameObject (some xs) (some ys) = true ↔
        Rel (fun x y => cmp.equal x y = true) (xs : Multiset α) ys :=
      (equalObjects_iff hc fun h => congrArg some (hobject h)).trans
        (equalUnordered_iff_rel hc.toConsistent)
    refine ⟨hrel.trans rel_iff_exists_equiv, hrel.trans (rel_iff_countP_eq ?_ ?_ ?_ ?_)⟩
    · exact fun _ _ => hc.symm
    · exact fun _ _ _ => hc.trans
    · exact fun x _ => hc.refl x
    · exact fun y _ => hc.refl y
  · intro ordered sameObject
    exact Bool.or_true sameObject
  · intro ordered xs
    exact ⟨rfl, rfl⟩

/-- Words by their remainder modulo 6. Words that are not equal have one hash if they have one
parity. -/
def remainders : Comparison UInt64 := ⟨fun x y => x % 6 == y % 6, fun x => x % 2⟩

theorem remainders_lawful : remainders.Lawful where
  symm h := beq_iff_eq.2 (beq_iff_eq.1 h).symm
  trans hxy hyz := beq_iff_eq.2 ((beq_iff_eq.1 hxy).trans (beq_iff_eq.1 hyz))
  refl x := beq_self_eq_true (x % 6)
  hash_eq {x y} h := by
    have h : x % 6 = y % 6 := beq_iff_eq.1 h
    rw [← UInt64.toNat_inj, UInt64.toNat_mod, UInt64.toNat_mod] at h
    show x % 2 = y % 2
    rw [← UInt64.toNat_inj, UInt64.toNat_mod, UInt64.toNat_mod]
    change x.toNat % 6 = y.toNat % 6 at h
    show x.toNat % 2 = y.toNat % 2
    omega

theorem equal_remainders :
    remainders.Lawful ∧
      (∃ σ : Fin 5 ≃ Fin 5, ∀ i,
        remainders.equal ([0, 2, 4, 6, 1].get i) ([7, 8, 12, 10, 0].get (σ i)) = true) ∧
      ¬ ∃ σ : Fin 3 ≃ Fin 3, ∀ i,
        remainders.equal ([0, 2, 2].get i) ([0, 0, 2].get (σ i)) = true := by
  have h := (equal_unordered_iff_bijection remainders_lawful).1
  refine ⟨remainders_lawful, ?_, fun hσ => ?_⟩
  · exact (h false [0, 2, 4, 6, 1] [7, 8, 12, 10, 0] nofun).1.1 (by decide)
  · exact absurd ((h false [0, 2, 2] [0, 0, 2] nofun).1.2 hσ) (by decide)

end Equate.Sequence
