import Mathlib.Data.Fintype.Card
import Mathlib.Data.Multiset.Count
import Mathlib.Data.Multiset.MapFold
import Mathlib.Logic.Equiv.Fin.Basic
import Equate.Node.Equality
/-!
# Pairing up two lists

Two lists pair up if their elements can be matched one to one, each with an element that it is
related to. `matchAll` looks for such a matching greedily: every element of the left takes the
first partner on the right that is still free. `matchAll_iff` says that it never misses one, as
long as elements of the left that share a partner share all of them. `exists_rel_le` gathers a
matching from partners that are given for each element, `rel_iff_countP_eq` from the sizes of
classes, and `rel_iff_exists_equiv` reads it as a bijection between the positions of both lists.
-/

namespace Equate

open Multiset

variable {α β : Type}

/-- Elements of the left that share a partner share all of them. -/
def Zigzag (R : α → β → Prop) (xs : List α) (ys : List β) : Prop :=
  ∀ x ∈ xs, ∀ x' ∈ xs, ∀ y ∈ ys, ∀ y' ∈ ys, R x y → R x' y → R x' y' → R x y'

/-! ## Place by place -/

theorem forall₂_imp_mem {R S : α → β → Prop} {xs : List α} {ys : List β}
    (hRS : ∀ x ∈ xs, ∀ y ∈ ys, R x y → S x y) (h : List.Forall₂ R xs ys) :
    List.Forall₂ S xs ys := by
  induction h with
  | nil => exact .nil
  | cons hxy _ ih =>
    refine .cons (hRS _ (by simp) _ (by simp) hxy) (ih fun x hx y hy => ?_)
    exact hRS x (by simp [hx]) y (by simp [hy])

theorem forall₂_trans {R : α → α → Prop} (hR : ∀ x y z, R x y → R y z → R x z)
    {xs ys zs : List α} (hxy : List.Forall₂ R xs ys) (hyz : List.Forall₂ R ys zs) :
    List.Forall₂ R xs zs := by
  induction hxy generalizing zs with
  | nil => exact hyz
  | cons h _ ih =>
    obtain ⟨z, zs, hz, hzs, rfl⟩ := List.forall₂_cons_left_iff.1 hyz
    exact .cons (hR _ _ _ h hz) (ih hzs)

/-! ## Greedy matching -/

/-- Every element of the left takes the first partner on the right that is still there. -/
def matchAll (p : α → β → Bool) : List α → List β → Bool
  | [], _ => true
  | x :: xs, ys =>
    match takeFirst? (p x) ys with
    | some rest => matchAll p xs rest
    | none => false

theorem cons_eq_of_takeFirst? {p : α → Bool} {xs rest : List α} (h : takeFirst? p xs = some rest) :
    ∃ x, p x = true ∧ (xs : Multiset α) = x ::ₘ rest := by
  rw [takeFirst?_eq] at h
  split at h
  · rename_i hany
    simp only [Option.some.injEq] at h
    subst h
    obtain ⟨y, hy, hp⟩ := List.any_eq_true.1 hany
    obtain ⟨x, front, back, -, hx, rfl, he⟩ := List.exists_of_eraseP hy hp
    refine ⟨x, hx, ?_⟩
    rw [he, Multiset.cons_coe, Multiset.coe_eq_coe]
    exact List.perm_middle
  · cases h

theorem takeFirst?_isSome {p : α → Bool} {xs : List α} {x : α} (hx : x ∈ xs) (hp : p x = true) :
    ∃ rest, takeFirst? p xs = some rest := by
  have hany : xs.any p = true := List.any_eq_true.2 ⟨x, hx, hp⟩
  exact ⟨xs.eraseP p, by rw [takeFirst?_eq, if_pos hany]⟩

/-- What is left of the right after taking `y'` in place of `y` still pairs up, if whatever may
have `y'` for a partner may have `y` as well. -/
theorem rel_exchange {R : α → β → Prop} {y y' : β} {s : Multiset α} {t t' : Multiset β}
    (hz : ∀ a ∈ s, R a y' → R a y) (ht : y ::ₘ t = y' ::ₘ t') (h : Rel R s t) : Rel R s t' := by
  rcases Multiset.cons_eq_cons.1 ht with ⟨-, rfl⟩ | ⟨-, u, rfl, rfl⟩
  · exact h
  · obtain ⟨a, s', ha, hs', rfl⟩ := rel_cons_right.1 h
    exact rel_cons_right.2 ⟨a, s', hz a (mem_cons_self a s') ha, hs', rfl⟩

/-- Greedy matching only makes pairs. -/
theorem rel_of_matchAll {p : α → β → Bool} {xs : List α} {ys : List β}
    (hlen : xs.length = ys.length) (h : matchAll p xs ys = true) :
    Rel (fun x y => p x y = true) (xs : Multiset α) ys := by
  induction xs generalizing ys with
  | nil =>
    rw [List.eq_nil_of_length_eq_zero hlen.symm]
    exact Rel.zero
  | cons x xs ih =>
    rw [matchAll] at h
    split at h
    · rename_i rest hrest
      obtain ⟨y, hp, hys⟩ := cons_eq_of_takeFirst? hrest
      have hcard := congrArg Multiset.card hys
      simp only [coe_card, card_cons] at hcard
      rw [hys, ← Multiset.cons_coe]
      exact Rel.cons hp (ih (by simp only [List.length_cons] at hlen; omega) h)
    · cases h

/-- Greedy matching finds a pairing if there is one. -/
theorem matchAll_of_rel {p : α → β → Bool} {xs : List α} {ys : List β}
    (hz : Zigzag (fun x y => p x y = true) xs ys)
    (h : Rel (fun x y => p x y = true) (xs : Multiset α) ys) : matchAll p xs ys = true := by
  induction xs generalizing ys with
  | nil => rfl
  | cons x xs ih =>
    rw [← Multiset.cons_coe] at h
    obtain ⟨y, t, hy, ht, hys⟩ := rel_cons_left.1 h
    have hmem : y ∈ ys := by
      rw [← Multiset.mem_coe, hys]
      exact mem_cons_self y t
    obtain ⟨rest, hrest⟩ := takeFirst?_isSome hmem hy
    obtain ⟨y', hy', hys'⟩ := cons_eq_of_takeFirst? hrest
    have hsub : ∀ z ∈ rest, z ∈ ys := by
      intro z hz
      rw [← Multiset.mem_coe, hys']
      exact mem_cons_of_mem hz
    have hmem' : y' ∈ ys := by
      rw [← Multiset.mem_coe, hys']
      exact mem_cons_self y' _
    rw [matchAll, hrest]
    refine ih ?_ (rel_exchange ?_ (hys.symm.trans hys') ht)
    · intro a ha b hb c hc d hd
      exact hz a (by simp [ha]) b (by simp [hb]) c (hsub c hc) d (hsub d hd)
    · -- `a` and `x` share the partner `y'`, so `a` may have the partner `y` of `x` as well
      intro a ha hay'
      exact hz a (by simp [Multiset.mem_coe.1 ha]) x (by simp) y' hmem' y hmem hay' hy' hy

theorem matchAll_iff {p : α → β → Bool} {xs : List α} {ys : List β}
    (hz : Zigzag (fun x y => p x y = true) xs ys) :
    xs.length = ys.length ∧ matchAll p xs ys = true ↔
      Rel (fun x y => p x y = true) (xs : Multiset α) ys :=
  ⟨fun h => rel_of_matchAll h.1 h.2,
    fun h => ⟨by simpa using card_eq_card_of_rel h, matchAll_of_rel hz h⟩⟩

/-! ## Pairings from partners and from counts -/

/-- If every element of the left has a partner and no two have the same one, the left pairs up
with a part of the right. -/
theorem exists_rel_le {R : α → β → Prop} {xs : List α} {t : Multiset β}
    (hpartner : ∀ x ∈ xs, ∃ y ∈ t, R x y) (hapart : xs.Pairwise fun x x' => ∀ y, R x y → ¬ R x' y) :
    ∃ t' ≤ t, Rel R (xs : Multiset α) t' := by
  induction xs generalizing t with
  | nil => exact ⟨0, Multiset.zero_le t, Rel.zero⟩
  | cons x xs ih =>
    obtain ⟨y, hy, hxy⟩ := hpartner x (by simp)
    obtain ⟨u, rfl⟩ := Multiset.exists_cons_of_mem hy
    obtain ⟨hx, hxs⟩ := List.pairwise_cons.1 hapart
    have hrest : ∀ a ∈ xs, ∃ b ∈ u, R a b := by
      intro a ha
      obtain ⟨b, hb, hab⟩ := hpartner a (by simp [ha])
      rcases Multiset.mem_cons.1 hb with rfl | hb
      · exact absurd hab (hx a ha b hxy)
      · exact ⟨b, hb, hab⟩
    obtain ⟨t', ht', hrel⟩ := ih hrest hxs
    refine ⟨y ::ₘ t', Multiset.cons_le_cons y ht', ?_⟩
    rw [← Multiset.cons_coe]
    exact Rel.cons hxy hrel

/-- If besides both sides have the same number of elements, nothing of the right is left over. -/
theorem rel_of_partners {R : α → β → Prop} {xs : List α} {ys : List β}
    (hlen : xs.length = ys.length) (hpartner : ∀ x ∈ xs, ∃ y ∈ ys, R x y)
    (hapart : xs.Pairwise fun x x' => ∀ y, R x y → ¬ R x' y) :
    Rel R (xs : Multiset α) ys := by
  obtain ⟨t, hle, hrel⟩ := exists_rel_le (t := (ys : Multiset β)) hpartner hapart
  have hcard := card_eq_card_of_rel hrel
  rw [Multiset.coe_card] at hcard
  rwa [Multiset.eq_of_le_of_card_le hle (by rw [Multiset.coe_card, ← hlen, hcard])] at hrel

/-- Related elements have the same image, so the images are rearrangements of each other. -/
theorem map_perm_of_rel {γ : Type} {R : α → β → Prop} {f : α → γ} {g : β → γ} {xs : List α}
    {ys : List β} (hR : ∀ x ∈ xs, ∀ y ∈ ys, R x y → f x = g y)
    (h : Rel R (xs : Multiset α) ys) : (xs.map f).Perm (ys.map g) := by
  rw [← Multiset.coe_eq_coe, ← Multiset.map_coe, ← Multiset.map_coe, ← Multiset.rel_eq,
    Multiset.rel_map_left, Multiset.rel_map_right]
  exact h.mono hR

theorem countP_eq_of_rel {p : α → α → Bool} (hsymm : ∀ x y, p x y = true → p y x = true)
    (htrans : ∀ x y z, p x y = true → p y z = true → p x z = true) {xs ys : List α}
    (h : Rel (fun x y => p x y = true) (xs : Multiset α) ys) (z : α) :
    xs.countP (p z) = ys.countP (p z) := by
  have hmap : (xs.map (p z)).Perm (ys.map (p z)) := by
    refine map_perm_of_rel (fun x _ y _ hxy => ?_) h
    rw [Bool.eq_iff_iff]
    exact ⟨fun hz => htrans z x y hz hxy, fun hz => htrans z y x hz (hsymm x y hxy)⟩
  have hcount := hmap.countP_eq id
  rwa [List.countP_map, List.countP_map, Function.id_comp] at hcount

/-- What takes part in a pairing is equal to itself. -/
theorem self_of_rel {p : α → α → Bool} (hsymm : ∀ x y, p x y = true → p y x = true)
    (htrans : ∀ x y z, p x y = true → p y z = true → p x z = true) {xs ys : List α}
    (h : Rel (fun x y => p x y = true) (xs : Multiset α) ys) :
    (∀ x ∈ xs, p x x = true) ∧ ∀ y ∈ ys, p y y = true := by
  constructor
  · intro x hx
    obtain ⟨y, -, hxy⟩ := exists_mem_of_rel_of_mem h (Multiset.mem_coe.2 hx)
    exact htrans x y x hxy (hsymm x y hxy)
  · intro y hy
    obtain ⟨x, -, hxy⟩ := exists_mem_of_rel_of_mem (rel_flip.2 h) (Multiset.mem_coe.2 hy)
    exact htrans y x y (hsymm x y hxy) hxy

/-- Two lists of elements that equal themselves pair up exactly if every class of equal elements
is as large in one as in the other. -/
theorem rel_iff_countP_eq {p : α → α → Bool} (hsymm : ∀ x y, p x y = true → p y x = true)
    (htrans : ∀ x y z, p x y = true → p y z = true → p x z = true) {xs ys : List α}
    (hxs : ∀ x ∈ xs, p x x = true) (hys : ∀ y ∈ ys, p y y = true) :
    Rel (fun x y => p x y = true) (xs : Multiset α) ys ↔
      ∀ z, xs.countP (p z) = ys.countP (p z) := by
  refine ⟨countP_eq_of_rel hsymm htrans, fun h => ?_⟩
  induction xs generalizing ys with
  | nil =>
    cases ys with
    | nil => exact Rel.zero
    | cons y ys =>
      have hy := h y
      rw [List.countP_nil, List.countP_cons_of_pos (hys y (by simp))] at hy
      omega
  | cons x xs ih =>
    have hpos : 0 < ys.countP (p x) := by
      rw [← h x, List.countP_cons_of_pos (hxs x (by simp))]
      exact Nat.succ_pos _
    obtain ⟨y, hy, hxy⟩ := List.countP_pos_iff.1 hpos
    obtain ⟨front, back, rfl⟩ := List.append_of_mem hy
    have hperm : (front ++ y :: back).Perm (y :: (front ++ back)) := List.perm_middle
    rw [← Multiset.cons_coe, Multiset.coe_eq_coe.2 hperm, ← Multiset.cons_coe]
    refine Rel.cons hxy (ih (fun x' hx' => hxs x' (by simp [hx'])) (fun y' hy' => ?_) fun z => ?_)
    · exact hys y' (hperm.symm.subset (List.mem_cons_of_mem y hy'))
    · have hz := h z
      have hsame : p z x = p z y := by
        rw [Bool.eq_iff_iff]
        exact ⟨fun hzx => htrans z x y hzx hxy, fun hzy => htrans z y x hzy (hsymm x y hxy)⟩
      rw [hperm.countP_eq, List.countP_cons, List.countP_cons, hsame] at hz
      omega

/-! ## Pairings by positions -/

/-- The values of a function on positions, with the one at `k` in front. -/
theorem map_univ_eq_cons {n : Nat} (g : Fin (n + 1) → β) (k : Fin (n + 1)) :
    (Finset.univ.val.map g : Multiset β) =
      g k ::ₘ Finset.univ.val.map fun j : Fin n => g (k.succAbove j) := by
  rw [Fin.univ_succAbove n k, Finset.cons_val, Multiset.map_cons, Finset.map_val, Multiset.map_map]
  rfl

theorem exists_equiv_of_rel_map {R : α → β → Prop} {m n : Nat} {f : Fin m → α} {g : Fin n → β}
    (h : Rel R (Finset.univ.val.map f) (Finset.univ.val.map g)) :
    ∃ σ : Fin m ≃ Fin n, ∀ i, R (f i) (g (σ i)) := by
  have hcard : m = n := by simpa using card_eq_card_of_rel h
  subst hcard
  induction m with
  | zero => exact ⟨.refl _, fun i => i.elim0⟩
  | succ m ih =>
    rw [map_univ_eq_cons f 0] at h
    obtain ⟨y, t, hy, ht, hg⟩ := rel_cons_left.1 h
    obtain ⟨k, -, rfl⟩ : ∃ k ∈ Finset.univ.val, g k = y := by
      rw [← Multiset.mem_map, hg]
      exact mem_cons_self y t
    rw [map_univ_eq_cons g k] at hg
    obtain rfl := (Multiset.cons_inj_right _).1 hg
    obtain ⟨σ, hσ⟩ := ih ht
    -- the first position goes to `k`, and the others go around it
    refine ⟨(finSuccEquiv m).trans (σ.optionCongr.trans (finSuccEquiv' k).symm), fun i => ?_⟩
    cases i using Fin.cases with
    | zero => simpa using hy
    | succ i => simpa using hσ i

/-- Two lists pair up exactly if some bijection of their positions relates what stands there. -/
theorem rel_iff_exists_equiv {R : α → β → Prop} {xs : List α} {ys : List β} :
    Rel R (xs : Multiset α) ys ↔
      ∃ σ : Fin xs.length ≃ Fin ys.length, ∀ i, R (xs.get i) (ys.get (σ i)) := by
  have hget {γ : Type} (zs : List γ) :
      (zs : Multiset γ) = Finset.univ.val.map zs.get := by
    rw [Fin.univ_val_map, List.ofFn_get]
  constructor
  · intro h
    rw [hget xs, hget ys] at h
    exact exists_equiv_of_rel_map h
  · rintro ⟨σ, hσ⟩
    rw [hget xs, hget ys, ← Multiset.map_univ_val_equiv σ, Multiset.map_map]
    exact rel_map.2 (rel_refl_of_refl_on fun i _ => hσ i)

end Equate
