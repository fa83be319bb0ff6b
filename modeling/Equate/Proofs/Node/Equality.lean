import Equate.Proofs.Binary64
import Equate.Proofs.Pairing
/-!
# Structural equality is an equivalence

`Agree R` says what makes two nodes equal if `R` is equality of their children: sets and maps are
equal if some pairing of their elements exists. `agree_iff` says that structural equality is a
fixed point of it, so the greedy matching never misses a pairing. Matching can only be trusted
among children that are compared by an equivalence, and equality is one because matching can be
trusted; `equivalence_below` proves both together by the size of the nodes.
-/

namespace Equate.Node

open Multiset

abbrev Equal (a b : Node) : Prop := a.equal b = true

/-- What makes two nodes equal, where `R` is equality of their children. -/
inductive Agree (R : Node → Node → Prop) : Node → Node → Prop
  | same (a : Node) : Agree R a a
  | nil {a b : Node} (ha : a.isNil = true) (hb : b.isNil = true) : Agree R a b
  | bool (m n : Mark) (x : Bool) : Agree R (.bool m x) (.bool n x)
  | int (m n : Mark) (x : Int64) : Agree R (.int m x) (.int n x)
  | float (m n : Mark) {x y : Binary64} (h : x.eq y = true) : Agree R (.float m x) (.float n y)
  | str (m n : Mark) (s : Bytes) : Agree R (.str m s) (.str n s)
  | keyword (m n : Mark) (s : Bytes) : Agree R (.keyword m s) (.keyword n s)
  | symbol (m n : Mark) (s : Bytes) : Agree R (.symbol m s) (.symbol n s)
  | list (m n : Mark) {xs ys : List Node} (h : List.Forall₂ R xs ys) :
      Agree R (.list m xs) (.list n ys)
  | vector (m n : Mark) {xs ys : List Node} (h : List.Forall₂ R xs ys) :
      Agree R (.vector m xs) (.vector n ys)
  | set (m n : Mark) {xs ys : List Node} (h : Rel R (xs : Multiset Node) ys) :
      Agree R (.set m xs) (.set n ys)
  | map (m n : Mark) {es fs : List (Node × Node)}
      (h : Rel (fun e f : Node × Node => R e.1 f.1 ∧ R e.2 f.2) (es : Multiset (Node × Node)) fs) :
      Agree R (.map m es) (.map n fs)

/-! ## What the comparison does with children -/

theorem equal_self (a : Node) : a.equal a = true := by
  rw [equal, same_self, Bool.true_or]

theorem alikeInOrder_iff {xs ys : List Node} :
    alikeInOrder xs ys = true ↔ List.Forall₂ Equal xs ys := by
  induction xs generalizing ys with
  | nil => cases ys <;> simp [alikeInOrder]
  | cons x xs ih => cases ys <;> simp [alikeInOrder, ih, Equal, equal]

theorem matchElements_eq (xs ys : List Node) : matchElements xs ys = matchAll equal xs ys := by
  induction xs generalizing ys with
  | nil => rfl
  | cons x xs ih =>
    have hx : (fun y => x.same y || x.alike y) = x.equal := rfl
    rw [matchElements, matchAll, hx]
    cases takeFirst? x.equal ys <;> simp only [ih]

theorem matchEntries_eq (es fs : List (Node × Node)) :
    matchEntries es fs = matchAll (fun e f => e.1.equal f.1 && e.2.equal f.2) es fs := by
  induction es generalizing fs with
  | nil => rfl
  | cons e es ih =>
    have he : (fun f : Node × Node => (e.1.same f.1 || e.1.alike f.1) &&
        (e.2.same f.2 || e.2.alike f.2)) = fun f => e.1.equal f.1 && e.2.equal f.2 := rfl
    rw [matchEntries, matchAll, he]
    cases takeFirst? (fun f : Node × Node => e.1.equal f.1 && e.2.equal f.2) fs <;> simp only [ih]

theorem agree_of_alike {a b : Node} (h : a.alike b = true) : Agree Equal a b := by
  cases a <;> cases b <;>
    simp only [alike, isNil, Bool.and_eq_true, beq_iff_eq, Bool.false_eq_true] at h
  case absent.absent | absent.nil | nil.absent | nil.nil => exact .nil rfl rfl
  case bool.bool m x n y => subst h; exact .bool m n x
  case int.int m x n y => subst h; exact .int m n x
  case float.float m x n y => exact .float m n h
  case str.str m s n t => subst h; exact .str m n s
  case keyword.keyword m s n t => subst h; exact .keyword m n s
  case symbol.symbol m s n t => subst h; exact .symbol m n s
  case list.list m xs n ys => exact .list m n (alikeInOrder_iff.1 h.2)
  case vector.vector m xs n ys => exact .vector m n (alikeInOrder_iff.1 h.2)
  case set.set m xs n ys =>
    rw [matchElements_eq] at h
    exact .set m n (rel_of_matchAll h.1 h.2)
  case map.map m es n fs =>
    rw [matchEntries_eq] at h
    have hrel := rel_of_matchAll h.1 h.2
    simp only [Bool.and_eq_true] at hrel
    exact .map m n hrel

theorem agree_of_equal {a b : Node} (h : a.equal b = true) : Agree Equal a b := by
  rcases Bool.or_eq_true_iff.1 h with h | h
  · rw [same_iff.1 h]
    exact .same b
  · exact agree_of_alike h

/-! ## What the relation keeps -/

theorem sizeOf_lt_of_mem {x : Node} {xs : List Node} (m : Mark) (h : x ∈ xs) :
    sizeOf x < sizeOf (Node.list m xs) ∧ sizeOf x < sizeOf (Node.vector m xs) ∧
      sizeOf x < sizeOf (Node.set m xs) := by
  have hx := List.sizeOf_lt_of_mem h
  simp only [list.sizeOf_spec, vector.sizeOf_spec, set.sizeOf_spec]
  omega

theorem sizeOf_lt_of_mem_map {e : Node × Node} {es : List (Node × Node)} (m : Mark) (h : e ∈ es) :
    sizeOf e.1 < sizeOf (Node.map m es) ∧ sizeOf e.2 < sizeOf (Node.map m es) := by
  have he := List.sizeOf_lt_of_mem h
  obtain ⟨k, v⟩ := e
  simp only [map.sizeOf_spec, Prod.mk.sizeOf_spec] at he ⊢
  omega

/-- Only what `R` says about smaller nodes matters. -/
theorem Agree.imp {R S : Node → Node → Prop} {a b : Node}
    (hRS : ∀ x y, sizeOf x < sizeOf a → sizeOf y < sizeOf b → R x y → S x y) (h : Agree R a b) :
    Agree S a b := by
  cases h with
  | same a => exact .same a
  | nil ha hb => exact .nil ha hb
  | bool m n x => exact .bool m n x
  | int m n x => exact .int m n x
  | float m n h => exact .float m n h
  | str m n s => exact .str m n s
  | keyword m n s => exact .keyword m n s
  | symbol m n s => exact .symbol m n s
  | list m n h =>
    refine .list m n (forall₂_imp_mem (fun x hx y hy => ?_) h)
    exact hRS x y (sizeOf_lt_of_mem m hx).1 (sizeOf_lt_of_mem n hy).1
  | vector m n h =>
    refine .vector m n (forall₂_imp_mem (fun x hx y hy => ?_) h)
    exact hRS x y (sizeOf_lt_of_mem m hx).2.1 (sizeOf_lt_of_mem n hy).2.1
  | set m n h =>
    refine .set m n (h.mono fun x hx y hy => ?_)
    exact hRS x y (sizeOf_lt_of_mem m hx).2.2 (sizeOf_lt_of_mem n hy).2.2
  | map m n h =>
    refine .map m n (h.mono fun e he f hf hef => ⟨?_, ?_⟩)
    · exact hRS _ _ (sizeOf_lt_of_mem_map m he).1 (sizeOf_lt_of_mem_map n hf).1 hef.1
    · exact hRS _ _ (sizeOf_lt_of_mem_map m he).2 (sizeOf_lt_of_mem_map n hf).2 hef.2

theorem Agree.symm {R : Node → Node → Prop} (hR : ∀ x y, R x y → R y x) {a b : Node}
    (h : Agree R a b) : Agree R b a := by
  cases h with
  | same a => exact .same a
  | nil ha hb => exact .nil hb ha
  | bool m n x => exact .bool n m x
  | int m n x => exact .int n m x
  | float m n h => exact .float n m (Binary64.eq_symm h)
  | str m n s => exact .str n m s
  | keyword m n s => exact .keyword n m s
  | symbol m n s => exact .symbol n m s
  | list m n h => exact .list n m (h.imp hR).flip
  | vector m n h => exact .vector n m (h.imp hR).flip
  | set m n h => exact .set n m (rel_flip.2 (h.mono fun x _ y _ => hR x y))
  | map m n h =>
    exact .map n m (rel_flip.1 (h.mono fun e _ f _ hef => ⟨hR _ _ hef.1, hR _ _ hef.2⟩))

theorem Agree.isNil_eq {R : Node → Node → Prop} {a b : Node} (h : Agree R a b) :
    a.isNil = b.isNil := by
  cases h <;> first | rfl | simp_all

theorem Agree.trans {R : Node → Node → Prop} (hR : ∀ x y z, R x y → R y z → R x z) {a b c : Node}
    (hab : Agree R a b) (hbc : Agree R b c) : Agree R a c := by
  have : IsTrans Node R := ⟨hR⟩
  have : IsTrans (Node × Node) fun e f => R e.1 f.1 ∧ R e.2 f.2 :=
    ⟨fun e f g hef hfg => ⟨hR _ _ _ hef.1 hfg.1, hR _ _ _ hef.2 hfg.2⟩⟩
  by_cases hb : b.isNil = true
  · exact .nil (hab.isNil_eq.trans hb) (hbc.isNil_eq.symm.trans hb)
  · cases hab with
    | same a => exact hbc
    | nil ha hb' => contradiction
    | bool m n x => cases hbc <;> first | exact .bool _ _ _ | contradiction
    | int m n x => cases hbc <;> first | exact .int _ _ _ | contradiction
    | str m n s => cases hbc <;> first | exact .str _ _ _ | contradiction
    | keyword m n s => cases hbc <;> first | exact .keyword _ _ _ | contradiction
    | symbol m n s => cases hbc <;> first | exact .symbol _ _ _ | contradiction
    | float m n h =>
      cases hbc with
      | same => exact .float m n h
      | nil => contradiction
      | float _ k h' => exact .float m k (Binary64.eq_trans h h')
    | list m n h =>
      cases hbc with
      | same => exact .list m n h
      | nil => contradiction
      | list _ k h' => exact .list m k (forall₂_trans hR h h')
    | vector m n h =>
      cases hbc with
      | same => exact .vector m n h
      | nil => contradiction
      | vector _ k h' => exact .vector m k (forall₂_trans hR h h')
    | set m n h =>
      cases hbc with
      | same => exact .set m n h
      | nil => contradiction
      | set _ k h' => exact .set m k (Rel.trans R h h')
    | map m n h =>
      cases hbc with
      | same => exact .map m n h
      | nil => contradiction
      | map _ k h' => exact .map m k (Rel.trans _ h h')

/-! ## Equivalence -/

/-- Structural equality is symmetric and transitive among nodes of size less than `n`. -/
structure EquivalenceBelow (n : Nat) : Prop where
  symm {a b : Node} (ha : sizeOf a < n) (hb : sizeOf b < n) (h : Equal a b) : Equal b a
  trans {a b c : Node} (ha : sizeOf a < n) (hb : sizeOf b < n) (hc : sizeOf c < n)
    (hab : Equal a b) (hbc : Equal b c) : Equal a c

theorem EquivalenceBelow.zigzag {n : Nat} (hn : EquivalenceBelow n) {a b a' b' : Node}
    (ha : sizeOf a < n) (ha' : sizeOf a' < n) (hb : sizeOf b < n) (hb' : sizeOf b' < n)
    (hab : Equal a b) (hab' : Equal a' b) (hab'' : Equal a' b') : Equal a b' :=
  hn.trans ha hb hb' hab (hn.trans hb ha' hb' (hn.symm ha' hb hab') hab'')

/-- Among children that are compared by an equivalence greedy matching misses nothing. -/
theorem EquivalenceBelow.equal_of_agree {n : Nat} (hn : EquivalenceBelow n) {a b : Node}
    (ha : sizeOf a ≤ n) (hb : sizeOf b ≤ n) (h : Agree Equal a b) : Equal a b := by
  suffices hab : a.same b = true ∨ a.alike b = true from Bool.or_eq_true_iff.2 hab
  cases h with
  | same => exact .inl (same_self a)
  | nil ha hb => cases a <;> cases ha <;> exact .inr hb
  | bool m n x => exact .inr (by simp [alike])
  | int m n x => exact .inr (by simp [alike])
  | float m n h => exact .inr h
  | str m n s => exact .inr (by simp [alike])
  | keyword m n s => exact .inr (by simp [alike])
  | symbol m n s => exact .inr (by simp [alike])
  | list m k h => exact .inr (by simp [alike, alikeInOrder_iff, h, h.length_eq])
  | vector m k h => exact .inr (by simp [alike, alikeInOrder_iff, h, h.length_eq])
  | @set m k xs ys h =>
    refine .inr ?_
    rw [alike, matchElements_eq, Bool.and_eq_true, beq_iff_eq]
    refine (matchAll_iff ?_).2 h
    intro x hx x' hx' y hy y' hy'
    have size {z : Node} {zs : List Node} {m : Mark} (hz : z ∈ zs)
        (hzs : sizeOf (Node.set m zs) ≤ n) : sizeOf z < n :=
      Nat.lt_of_lt_of_le (sizeOf_lt_of_mem m hz).2.2 hzs
    exact hn.zigzag (size hx ha) (size hx' ha) (size hy hb) (size hy' hb)
  | @map m k es fs h =>
    refine .inr ?_
    rw [alike, matchEntries_eq, Bool.and_eq_true, beq_iff_eq]
    refine (matchAll_iff ?_).2 (by simpa only [Bool.and_eq_true] using h)
    intro e he e' he' f hf f' hf' hef hef' hef''
    have size {z : Node × Node} {zs : List (Node × Node)} {m : Mark} (hz : z ∈ zs)
        (hzs : sizeOf (Node.map m zs) ≤ n) : sizeOf z.1 < n ∧ sizeOf z.2 < n :=
      ⟨Nat.lt_of_lt_of_le (sizeOf_lt_of_mem_map m hz).1 hzs,
        Nat.lt_of_lt_of_le (sizeOf_lt_of_mem_map m hz).2 hzs⟩
    simp only [Bool.and_eq_true] at hef hef' hef'' ⊢
    exact ⟨hn.zigzag (size he ha).1 (size he' ha).1 (size hf hb).1 (size hf' hb).1
        hef.1 hef'.1 hef''.1,
      hn.zigzag (size he ha).2 (size he' ha).2 (size hf hb).2 (size hf' hb).2
        hef.2 hef'.2 hef''.2⟩

/-- Equality among nodes of size less than `n`. -/
def EqualBelow (n : Nat) (a b : Node) : Prop := sizeOf a < n ∧ sizeOf b < n ∧ Equal a b

theorem Agree.below {n : Nat} {a b : Node} (ha : sizeOf a ≤ n) (hb : sizeOf b ≤ n)
    (h : Agree Equal a b) : Agree (EqualBelow n) a b :=
  h.imp fun _ _ hx hy hxy => ⟨Nat.lt_of_lt_of_le hx ha, Nat.lt_of_lt_of_le hy hb, hxy⟩

theorem Agree.of_below {n : Nat} {a b : Node} (h : Agree (EqualBelow n) a b) : Agree Equal a b :=
  h.imp fun _ _ _ _ hxy => hxy.2.2

theorem equivalence_below (n : Nat) : EquivalenceBelow n := by
  induction n with
  | zero => exact ⟨fun ha => absurd ha (Nat.not_lt_zero _), fun ha => absurd ha (Nat.not_lt_zero _)⟩
  | succ n ih =>
    constructor
    · intro a b ha hb h
      have hab := (agree_of_equal h).below (Nat.le_of_lt_succ ha) (Nat.le_of_lt_succ hb)
      have hba : Agree (EqualBelow n) b a :=
        hab.symm fun x y hxy => ⟨hxy.2.1, hxy.1, ih.symm hxy.1 hxy.2.1 hxy.2.2⟩
      exact ih.equal_of_agree (Nat.le_of_lt_succ hb) (Nat.le_of_lt_succ ha) hba.of_below
    · intro a b c ha hb hc hab hbc
      have hab := (agree_of_equal hab).below (Nat.le_of_lt_succ ha) (Nat.le_of_lt_succ hb)
      have hbc := (agree_of_equal hbc).below (Nat.le_of_lt_succ hb) (Nat.le_of_lt_succ hc)
      have hac : Agree (EqualBelow n) a c := by
        refine hab.trans (fun x y z hxy hyz => ?_) hbc
        exact ⟨hxy.1, hyz.2.1, ih.trans hxy.1 hxy.2.1 hyz.2.1 hxy.2.2 hyz.2.2⟩
      exact ih.equal_of_agree (Nat.le_of_lt_succ ha) (Nat.le_of_lt_succ hc) hac.of_below

theorem equal_symm {a b : Node} (h : a.equal b = true) : b.equal a = true :=
  (equivalence_below (sizeOf a + sizeOf b + 1)).symm (by omega) (by omega) h

theorem equal_trans {a b c : Node} (hab : a.equal b = true) (hbc : b.equal c = true) :
    a.equal c = true :=
  (equivalence_below (sizeOf a + sizeOf b + sizeOf c + 1)).trans (by omega) (by omega) (by omega)
    hab hbc

theorem agree_iff {a b : Node} : Agree Equal a b ↔ a.equal b = true :=
  ⟨(equivalence_below (sizeOf a + sizeOf b)).equal_of_agree (by omega) (by omega), agree_of_equal⟩

end Equate.Node
