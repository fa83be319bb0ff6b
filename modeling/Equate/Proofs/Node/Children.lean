import Equate.Node.Reader
import Equate.Proofs.Node.Equality
/-!
# Nodes below a node

The children of a collection are what stands between its brackets, keys and values of a map in
turn. A node occurs in another if children lead down to it.
-/

namespace Equate

namespace Node

/-- What stands between the brackets of a collection, in order. -/
def children : Node → List Node
  | .list _ xs | .vector _ xs | .set _ xs => xs
  | .map _ es => es.flatMap fun e => [e.1, e.2]
  | .absent | .nil _ | .bool _ _ | .int _ _ | .float _ _ | .str _ _ | .keyword _ _
  | .symbol _ _ => []

theorem mem_children_map {x : Node} {m : Mark} {es : List (Node × Node)} :
    x ∈ (map m es).children ↔ ∃ e ∈ es, x = e.1 ∨ x = e.2 := by
  simp [children]

theorem sizeOf_lt_of_mem_children {x v : Node} (h : x ∈ v.children) : sizeOf x < sizeOf v := by
  cases v with
  | list m => exact (sizeOf_lt_of_mem m h).1
  | vector m => exact (sizeOf_lt_of_mem m h).2.1
  | set m => exact (sizeOf_lt_of_mem m h).2.2
  | map m =>
    obtain ⟨e, he, rfl | rfl⟩ := mem_children_map.1 h
    · exact (sizeOf_lt_of_mem_map m he).1
    · exact (sizeOf_lt_of_mem_map m he).2
  | _ => cases h

/-- The brackets of a collection. -/
def bracket? : Node → Option Bracket
  | .list _ _ => some .list
  | .vector _ _ => some .vector
  | .set _ _ => some .set
  | .map _ _ => some .map
  | .absent | .nil _ | .bool _ _ | .int _ _ | .float _ _ | .str _ _ | .keyword _ _
  | .symbol _ _ => none

/-- Whether the first node is the second one, or is in it at any depth. -/
inductive Occurs : Node → Node → Prop
  | self (v : Node) : Occurs v v
  | child {n x v : Node} (hx : x ∈ v.children) (h : Occurs n x) : Occurs n v

theorem Occurs.eq_of_children_eq_nil {n v : Node} (h : Occurs n v) (hv : v.children = []) :
    n = v := by
  cases h with
  | self => rfl
  | child hx => simp [hv] at hx

/-- A node without parts, with its mark. -/
structure IsLeaf (mark : Mark) (v : Node) : Prop where
  mark? : v.mark? = some mark
  children : v.children = []
  bracket? : v.bracket? = none

theorem isLeaf_wordNode (mark : Mark) (word : Bytes) : IsLeaf mark (wordNode mark word) := by
  unfold wordNode
  repeat' split
  all_goals exact ⟨rfl, rfl, rfl⟩

end Node

/-! ## Collections -/

theorem flatMap_of_pairUp {xs : List Node} {es : List (Node × Node)} (h : pairUp xs = some es) :
    es.flatMap (fun e => [e.1, e.2]) = xs := by
  fun_induction pairUp xs generalizing es with
  | case1 =>
    cases h
    rfl
  | case2 => cases h
  | case3 k v rest ih =>
    obtain ⟨es, hes, rfl⟩ := Option.map_eq_some_iff.1 h
    rw [List.flatMap_cons, ih hes]
    rfl

/-- A collection has the mark and the children it is made of. -/
theorem Bracket.of_node? {v : Node} {bracket : Bracket} {mark : Mark} {items : List Node}
    (h : bracket.node? mark items = some v) :
    v.mark? = some mark ∧ v.bracket? = some bracket ∧ v.children = items := by
  cases bracket with
  | list | vector | set =>
    cases h
    exact ⟨rfl, rfl, rfl⟩
  | map =>
    obtain ⟨es, hes, rfl⟩ := Option.map_eq_some_iff.1 h
    exact ⟨rfl, rfl, flatMap_of_pairUp hes⟩

end Equate
