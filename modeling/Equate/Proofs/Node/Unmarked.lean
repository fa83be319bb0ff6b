import Equate.Node.Printer
import Equate.Proofs.Binary64
import Equate.Proofs.Node.Children
import Equate.Proofs.Node.SameValue
/-!
# Nodes without their marks

A node without its marks is a tree that no longer tells where it was read: kinds, contents and the
order of children are all that is left. Views and the printed text are those of the node
(`text_unmarked`), and nodes that are alike without their marks are equal, unless NaN is in the way
(`equal_of_unmarked_eq`).
-/

namespace Equate

/-- The mark that tells of no place. -/
def Mark.blank : Mark := ⟨0, none⟩

namespace Node

mutual

/-- The node with blank marks throughout. -/
def unmarked : Node → Node
  | .absent => .absent
  | .nil _ => .nil .blank
  | .bool _ b => .bool .blank b
  | .int _ i => .int .blank i
  | .float _ x => .float .blank x
  | .str _ s => .str .blank s
  | .keyword _ k => .keyword .blank k
  | .symbol _ s => .symbol .blank s
  | .list _ xs => .list .blank (unmarkedAll xs)
  | .vector _ xs => .vector .blank (unmarkedAll xs)
  | .set _ xs => .set .blank (unmarkedAll xs)
  | .map _ es => .map .blank (unmarkedEntries es)
termination_by structural x => x

def unmarkedAll : List Node → List Node
  | [] => []
  | x :: xs => x.unmarked :: unmarkedAll xs
termination_by structural x => x

def unmarkedEntries : List (Node × Node) → List (Node × Node)
  | [] => []
  | (k, v) :: es => (k.unmarked, v.unmarked) :: unmarkedEntries es
termination_by structural x => x

end

@[simp] theorem unmarkedAll_eq_map (xs : List Node) : unmarkedAll xs = xs.map unmarked := by
  induction xs with
  | nil => rfl
  | cons x xs ih => rw [unmarkedAll, ih, List.map_cons]

@[simp] theorem unmarkedEntries_eq_map (es : List (Node × Node)) :
    unmarkedEntries es = es.map fun e => (e.1.unmarked, e.2.unmarked) := by
  induction es with
  | nil => rfl
  | cons e es ih => rw [unmarkedEntries, ih, List.map_cons]

/-! ## Text -/

mutual

theorem write_unmarked : ∀ (n : Node) (rest : Bytes), n.unmarked.write rest = n.write rest
  | .absent, _ | .nil _, _ | .bool _ _, _ | .int _ _, _ | .float _ _, _ | .str _ _, _
  | .keyword _ _, _ | .symbol _ _, _ => rfl
  | .list _ xs, rest | .vector _ xs, rest | .set _ xs, rest => by
    rw [unmarked, write, write, writeAll_unmarked xs]
  | .map _ es, rest => by
    rw [unmarked, write, write, writeEntries_unmarked es]

theorem writeAll_unmarked : ∀ (xs : List Node) (rest : Bytes),
    writeAll (unmarkedAll xs) rest = writeAll xs rest
  | [], _ => rfl
  | x :: xs, rest => by
    rw [unmarkedAll, writeAll, writeAll, write_unmarked x, writeAll_unmarked xs]
    cases xs <;> rfl

theorem writeEntries_unmarked : ∀ (es : List (Node × Node)) (rest : Bytes),
    writeEntries (unmarkedEntries es) rest = writeEntries es rest
  | [], _ => rfl
  | (k, v) :: es, rest => by
    rw [unmarkedEntries, writeEntries, writeEntries, write_unmarked k, write_unmarked v,
      writeEntries_unmarked es]
    cases es <;> rfl

end

@[simp] theorem text_unmarked (n : Node) : n.unmarked.text = n.text := write_unmarked n []

/-! ## Equality -/

mutual

/-- Whether no double occurs in the node. -/
def isFloatFree : Node → Bool
  | .float _ _ => false
  | .list _ xs | .vector _ xs | .set _ xs => areFloatFree xs
  | .map _ es => entriesFloatFree es
  | .absent | .nil _ | .bool _ _ | .int _ _ | .str _ _ | .keyword _ _ | .symbol _ _ => true
termination_by structural x => x

def areFloatFree : List Node → Bool
  | [] => true
  | x :: xs => x.isFloatFree && areFloatFree xs
termination_by structural x => x

def entriesFloatFree : List (Node × Node) → Bool
  | [] => true
  | (k, v) :: es => k.isFloatFree && v.isFloatFree && entriesFloatFree es
termination_by structural x => x

end

@[simp] theorem areFloatFree_iff {xs : List Node} :
    areFloatFree xs = true ↔ ∀ x ∈ xs, x.isFloatFree = true := by
  induction xs with
  | nil => simp [areFloatFree]
  | cons x xs ih => simp [areFloatFree, ih]

@[simp] theorem entriesFloatFree_iff {es : List (Node × Node)} :
    entriesFloatFree es = true ↔ ∀ e ∈ es, e.1.isFloatFree = true ∧ e.2.isFloatFree = true := by
  induction es with
  | nil => simp [entriesFloatFree]
  | cons e es ih => simp [entriesFloatFree, ih]

theorem isFloatFree_of_mem_children {x v : Node} (h : v.isFloatFree = true)
    (hx : x ∈ v.children) : x.isFloatFree = true := by
  cases v with
  | list | vector | set => exact areFloatFree_iff.1 h x hx
  | map =>
    obtain ⟨e, he, rfl | rfl⟩ := mem_children_map.1 hx
    · exact (entriesFloatFree_iff.1 h e he).1
    · exact (entriesFloatFree_iff.1 h e he).2
  | _ => cases hx

theorem isFloatFree_of_occurs {n v : Node} (hn : n.Occurs v) (h : v.isFloatFree = true) :
    n.isFloatFree = true := by
  induction hn with
  | self => exact h
  | child hx _ ih => exact ih (isFloatFree_of_mem_children h hx)

/-- Whether no double that occurs in the node is NaN. -/
def HasNoNaN (v : Node) : Prop := ∀ m x, Occurs (.float m x) v → x.isNaN = false

theorem hasNoNaN_of_isFloatFree {v : Node} (h : v.isFloatFree = true) : v.HasNoNaN := by
  intro m x hx
  have hfree := isFloatFree_of_occurs hx h
  cases hfree

theorem HasNoNaN.of_mem_children {x v : Node} (h : v.HasNoNaN) (hx : x ∈ v.children) :
    x.HasNoNaN := fun m y hy => h m y (.child hx hy)

theorem SameValue.of_unmarked_eq {a b : Node} (hnan : a.HasNoNaN)
    (h : a.unmarked = b.unmarked) : SameValue a b := by
  have child {x y : Node} (hx : x ∈ a.children) (h : x.unmarked = y.unmarked) :
      SameValue x y := by
    have hsize := sizeOf_lt_of_mem_children hx
    exact of_unmarked_eq (hnan.of_mem_children hx) h
  have below {xs ys : List Node} (hxs : ∀ x ∈ xs, x ∈ a.children)
      (h : xs.map unmarked = ys.map unmarked) (i : Nat) (hx : i < xs.length)
      (hy : i < ys.length) : SameValue xs[i] ys[i] := by
    have hi := List.getElem_of_eq h (by simpa using hx)
    simp only [List.getElem_map] at hi
    exact child (hxs _ (List.getElem_mem hx)) hi
  cases a <;> cases b <;>
    simp only [unmarked, unmarkedAll_eq_map, unmarkedEntries_eq_map, reduceCtorEq, bool.injEq,
      int.injEq, float.injEq, str.injEq, keyword.injEq, symbol.injEq, list.injEq, vector.injEq,
      set.injEq, map.injEq, true_and] at h
  case absent.absent | nil.nil => exact .nil rfl rfl
  case bool.bool m x n y => subst h; exact .bool m n x
  case int.int m x n y => subst h; exact .int m n x
  case float.float m x n y => subst h; exact .float m n (Binary64.eq_self (hnan m x (.self _)))
  case str.str m s n t => subst h; exact .str m n s
  case keyword.keyword m s n t => subst h; exact .keyword m n s
  case symbol.symbol m s n t => subst h; exact .symbol m n s
  case list.list m xs n ys =>
    exact .list m n (by simpa using congrArg List.length h) (below (fun _ hx => hx) h)
  case vector.vector m xs n ys =>
    exact .vector m n (by simpa using congrArg List.length h) (below (fun _ hx => hx) h)
  case set.set m xs n ys =>
    have hlen : xs.length = ys.length := by simpa using congrArg List.length h
    exact .set m n (finCongr hlen) fun i => below (fun _ hx => hx) h i i.2 (hlen ▸ i.2)
  case map.map m es n fs =>
    have hlen : es.length = fs.length := by simpa using congrArg List.length h
    have hentry (i : Fin es.length) :
        (es.get i).1.unmarked = (fs.get (finCongr hlen i)).1.unmarked ∧
        (es.get i).2.unmarked = (fs.get (finCongr hlen i)).2.unmarked := by
      simpa using List.getElem_of_eq h (by simp : i < (es.map _).length)
    refine .map m n (finCongr hlen) (fun i => child ?_ (hentry i).1) fun i => child ?_ (hentry i).2
    · exact mem_children_map.2 ⟨_, List.get_mem es i, .inl rfl⟩
    · exact mem_children_map.2 ⟨_, List.get_mem es i, .inr rfl⟩
termination_by sizeOf a

theorem equal_of_unmarked_eq {a b : Node} (hnan : a.HasNoNaN) (h : a.unmarked = b.unmarked) :
    a.equal b = true :=
  (SameValue.of_unmarked_eq hnan h).equal

end Node

end Equate
