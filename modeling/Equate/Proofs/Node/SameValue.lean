import Equate.Proofs.Node.Equality
/-!
# The value of a node

`SameValue` says when two nodes stand for the same value, with a bijection between the elements of
two sets or the entries of two maps and without any search. It is the least relation that agreement
of children under it extends (`of_agree`, `least`), and structural equality is another name for it
(`equal_iff_sameValue`).
-/

namespace Equate.Node

open Multiset

/-- Two nodes stand for the same value: they are one node, both are nil, or they have the same kind
and contents that do, which sets and maps hold in any order. -/
inductive SameValue : Node → Node → Prop
  | same (a : Node) : SameValue a a
  | nil {a b : Node} (ha : a.isNil = true) (hb : b.isNil = true) : SameValue a b
  | bool (m n : Mark) (x : Bool) : SameValue (.bool m x) (.bool n x)
  | int (m n : Mark) (x : Int64) : SameValue (.int m x) (.int n x)
  | float (m n : Mark) {x y : Binary64} (h : x.eq y = true) : SameValue (.float m x) (.float n y)
  | str (m n : Mark) (s : Bytes) : SameValue (.str m s) (.str n s)
  | keyword (m n : Mark) (s : Bytes) : SameValue (.keyword m s) (.keyword n s)
  | symbol (m n : Mark) (s : Bytes) : SameValue (.symbol m s) (.symbol n s)
  | list (m n : Mark) {xs ys : List Node} (hlen : xs.length = ys.length)
      (h : ∀ (i : Nat) (hx : i < xs.length) (hy : i < ys.length), SameValue xs[i] ys[i]) :
      SameValue (.list m xs) (.list n ys)
  | vector (m n : Mark) {xs ys : List Node} (hlen : xs.length = ys.length)
      (h : ∀ (i : Nat) (hx : i < xs.length) (hy : i < ys.length), SameValue xs[i] ys[i]) :
      SameValue (.vector m xs) (.vector n ys)
  | set (m n : Mark) {xs ys : List Node} (σ : Fin xs.length ≃ Fin ys.length)
      (h : ∀ i, SameValue (xs.get i) (ys.get (σ i))) : SameValue (.set m xs) (.set n ys)
  | map (m n : Mark) {es fs : List (Node × Node)} (σ : Fin es.length ≃ Fin fs.length)
      (hkey : ∀ i, SameValue (es.get i).1 (fs.get (σ i)).1)
      (hvalue : ∀ i, SameValue (es.get i).2 (fs.get (σ i)).2) : SameValue (.map m es) (.map n fs)

namespace SameValue

theorem of_agree {a b : Node} (h : Agree SameValue a b) : SameValue a b := by
  cases h with
  | same a => exact .same a
  | nil ha hb => exact .nil ha hb
  | bool m n x => exact .bool m n x
  | int m n x => exact .int m n x
  | float m n h => exact .float m n h
  | str m n s => exact .str m n s
  | keyword m n s => exact .keyword m n s
  | symbol m n s => exact .symbol m n s
  | list m n h => exact .list m n h.length_eq (List.forall₂_iff_get.1 h).2
  | vector m n h => exact .vector m n h.length_eq (List.forall₂_iff_get.1 h).2
  | set m n h =>
    obtain ⟨σ, hσ⟩ := rel_iff_exists_equiv.1 h
    exact .set m n σ hσ
  | map m n h =>
    obtain ⟨σ, hσ⟩ := rel_iff_exists_equiv.1 h
    exact .map m n σ (fun i => (hσ i).1) fun i => (hσ i).2

/-- A relation that holds where nodes agree up to it holds of all nodes with the same value. -/
theorem least {R : Node → Node → Prop} (hR : ∀ a b, Agree R a b → R a b) {a b : Node}
    (h : SameValue a b) : R a b := by
  induction h with
  | same a => exact hR _ _ (.same a)
  | nil ha hb => exact hR _ _ (.nil ha hb)
  | bool m n x => exact hR _ _ (.bool m n x)
  | int m n x => exact hR _ _ (.int m n x)
  | float m n h => exact hR _ _ (.float m n h)
  | str m n s => exact hR _ _ (.str m n s)
  | keyword m n s => exact hR _ _ (.keyword m n s)
  | symbol m n s => exact hR _ _ (.symbol m n s)
  | list m n hlen h ih => exact hR _ _ (.list m n (List.forall₂_iff_get.2 ⟨hlen, ih⟩))
  | vector m n hlen h ih => exact hR _ _ (.vector m n (List.forall₂_iff_get.2 ⟨hlen, ih⟩))
  | set m n σ h ih => exact hR _ _ (.set m n (rel_iff_exists_equiv.2 ⟨σ, ih⟩))
  | map m n σ hkey hvalue ihkey ihvalue =>
    exact hR _ _ (.map m n (rel_iff_exists_equiv.2 ⟨σ, fun i => ⟨ihkey i, ihvalue i⟩⟩))

theorem of_equal {a b : Node} (h : a.equal b = true) : SameValue a b := by
  apply of_agree
  -- the children are smaller
  exact (agree_of_equal h).imp fun _ _ _ _ hxy => of_equal hxy
termination_by sizeOf a

theorem equal {a b : Node} (h : SameValue a b) : a.equal b = true := by
  apply h.least (R := Equal)
  intro x y hxy
  exact agree_iff.1 hxy

end SameValue

/-! ## Structural equality -/

theorem sameValue_iff {a b : Node} : SameValue a b ↔ a.equal b = true :=
  ⟨SameValue.equal, SameValue.of_equal⟩

theorem equal_zigzag {a b a' b' : Node} (hab : Equal a b) (hab' : Equal a' b)
    (hab'' : Equal a' b') : Equal a b' :=
  equal_trans hab (equal_trans (equal_symm hab') hab'')

/-- The elements of two sets are matched exactly if some bijection pairs equal ones. -/
theorem matchElements_iff {xs ys : List Node} :
    xs.length = ys.length ∧ matchElements xs ys = true ↔
      ∃ σ : Fin xs.length ≃ Fin ys.length, ∀ i, Equal (xs.get i) (ys.get (σ i)) := by
  have hzigzag : Zigzag (fun x y : Node => x.equal y = true) xs ys := by
    intro x _ x' _ y _ y' _ hxy hxy' hxy''
    exact equal_zigzag hxy hxy' hxy''
  rw [matchElements_eq, matchAll_iff hzigzag, rel_iff_exists_equiv]

/-- The same for the entries of two maps. -/
theorem matchEntries_iff {es fs : List (Node × Node)} :
    es.length = fs.length ∧ matchEntries es fs = true ↔
      ∃ σ : Fin es.length ≃ Fin fs.length,
        ∀ i, Equal (es.get i).1 (fs.get (σ i)).1 ∧ Equal (es.get i).2 (fs.get (σ i)).2 := by
  have hzigzag : Zigzag (fun e f : Node × Node => (e.1.equal f.1 && e.2.equal f.2) = true) es fs := by
    intro e _ e' _ f _ f' _ hef hef' hef''
    rw [Bool.and_eq_true] at hef hef' hef'' ⊢
    exact ⟨equal_zigzag hef.1 hef'.1 hef''.1, equal_zigzag hef.2 hef'.2 hef''.2⟩
  rw [matchEntries_eq, matchAll_iff hzigzag, rel_iff_exists_equiv]
  simp only [Bool.and_eq_true]

/-- Structural equality decides whether two nodes stand for the same value. Matching the elements
of sets and the entries of maps greedily misses no bijection, and equality is an equivalence. -/
theorem equal_iff_sameValue :
    (∀ a b : Node, a.equal b = true ↔ SameValue a b) ∧
    (∀ xs ys : List Node, (xs.length = ys.length ∧ matchElements xs ys = true) ↔
      ∃ σ : Fin xs.length ≃ Fin ys.length, ∀ i, SameValue (xs.get i) (ys.get (σ i))) ∧
    (∀ es fs : List (Node × Node), (es.length = fs.length ∧ matchEntries es fs = true) ↔
      ∃ σ : Fin es.length ≃ Fin fs.length,
        ∀ i, SameValue (es.get i).1 (fs.get (σ i)).1 ∧ SameValue (es.get i).2 (fs.get (σ i)).2) ∧
    Equivalence fun a b : Node => a.equal b = true := by
  refine ⟨?_, ?_, ?_, ?_⟩
  · intro a b
    exact sameValue_iff.symm
  · intro xs ys
    simp only [sameValue_iff]
    exact matchElements_iff
  · intro es fs
    simp only [sameValue_iff]
    exact matchEntries_iff
  · exact ⟨equal_self, equal_symm, equal_trans⟩

end Equate.Node
