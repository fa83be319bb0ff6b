import Equate.Binary64.Basic
import Equate.Bytes
/-!
# Data trees

A node is a datum with a mark that tells where it comes from. The mark never takes part in the
meaning of a node, but together with the datum it is the node's identity: two nodes are the same
node exactly if they are equal as Lean values, which `Node.same` decides.
-/

namespace Equate

/-- A place in a text. Lines and columns count from 1, columns in bytes. -/
structure Position where
  line : Nat
  column : Nat
  deriving DecidableEq, Repr

/-- The places of the first and the last byte of a form. -/
structure Span where
  first : Position
  last : Position
  deriving DecidableEq, Repr

/-- What a diagnostic points at; `-1` stands for an unknown line or column. -/
structure Location where
  line : Int
  column : Int
  deriving DecidableEq, Repr

namespace Location

def unknown : Location := ⟨-1, -1⟩

def ofPosition (p : Position) : Location := ⟨p.line, p.column⟩

end Location

/-- Where a node comes from. `origin` numbers the texts read and the objects built by hand, and
nodes of one text differ in their spans. -/
structure Mark where
  origin : Nat
  span? : Option Span
  deriving DecidableEq, Repr

/-- Where a node with this mark starts, if it was read from a text. -/
def Mark.location (m : Mark) : Location :=
  match m.span? with
  | some s => .ofPosition s.first
  | none => .unknown

/-- A datum. `absent` is the lack of a node, which counts as nil. -/
inductive Node where
  | absent
  | nil (mark : Mark)
  | bool (mark : Mark) (value : Bool)
  | int (mark : Mark) (value : Int64)
  | float (mark : Mark) (value : Binary64)
  | str (mark : Mark) (text : Bytes)
  | keyword (mark : Mark) (name : Bytes)
  | symbol (mark : Mark) (name : Bytes)
  | list (mark : Mark) (items : List Node)
  | vector (mark : Mark) (items : List Node)
  | set (mark : Mark) (items : List Node)
  | map (mark : Mark) (entries : List (Node × Node))
  deriving Inhabited

namespace Node

/-! ## Views -/

def mark? : Node → Option Mark
  | .absent => none
  | .nil m | .bool m _ | .int m _ | .float m _ | .str m _ | .keyword m _ | .symbol m _
  | .list m _ | .vector m _ | .set m _ | .map m _ => some m

def span? (n : Node) : Option Span := n.mark?.bind Mark.span?

/-- Where the node starts, if it was read from a text. -/
def location (n : Node) : Location :=
  match n.mark? with
  | some m => m.location
  | none => .unknown

def isNil : Node → Bool
  | .absent | .nil _ => true
  | _ => false

/-- The children of a list, vector or set. -/
def elements? : Node → Option (List Node)
  | .list _ xs | .vector _ xs | .set _ xs => some xs
  | _ => none

/-- The items of a list. -/
def listItems? : Node → Option (List Node)
  | .list _ xs => some xs
  | _ => none

/-- The items of a vector. -/
def vectorItems? : Node → Option (List Node)
  | .vector _ xs => some xs
  | _ => none

def boolean? : Node → Option Bool
  | .bool _ b => some b
  | _ => none

def keyword? : Node → Option Bytes
  | .keyword _ k => some k
  | _ => none

/-- A symbol or a string taken as a name; empty for any other node. -/
def name : Node → Bytes
  | .symbol _ s | .str _ s => s
  | _ => []

/-- The symbol a list starts with; empty for any other node. -/
def head : Node → Bytes
  | .list _ (.symbol _ s :: _) => s
  | _ => []

/-! ## Identity -/

mutual

/-- Whether two nodes have equal marks and the same contents throughout. -/
def coincide : Node → Node → Bool
  | .absent, .absent => true
  | .nil m, .nil n => m == n
  | .bool m x, .bool n y => m == n && x == y
  | .int m x, .int n y => m == n && x == y
  | .float m x, .float n y => m == n && x == y
  | .str m x, .str n y => m == n && x == y
  | .keyword m x, .keyword n y => m == n && x == y
  | .symbol m x, .symbol n y => m == n && x == y
  | .list m xs, .list n ys => m == n && coincideAll xs ys
  | .vector m xs, .vector n ys => m == n && coincideAll xs ys
  | .set m xs, .set n ys => m == n && coincideAll xs ys
  | .map m xs, .map n ys => m == n && coincideEntries xs ys
  | _, _ => false
termination_by structural x => x

def coincideAll : List Node → List Node → Bool
  | [], [] => true
  | x :: xs, y :: ys => x.coincide y && coincideAll xs ys
  | _, _ => false
termination_by structural x => x

def coincideEntries : List (Node × Node) → List (Node × Node) → Bool
  | [], [] => true
  | (k, v) :: xs, (l, w) :: ys => k.coincide l && v.coincide w && coincideEntries xs ys
  | _, _ => false
termination_by structural x => x

end

mutual

theorem eq_of_coincide : ∀ {a b : Node}, a.coincide b = true → a = b
  | .absent, b, h => by cases b <;> simp_all [coincide]
  | .nil _, b, h => by cases b <;> simp_all [coincide]
  | .bool _ _, b, h => by cases b <;> simp_all [coincide]
  | .int _ _, b, h => by cases b <;> simp_all [coincide]
  | .float _ _, b, h => by cases b <;> simp_all [coincide]
  | .str _ _, b, h => by cases b <;> simp_all [coincide]
  | .keyword _ _, b, h => by cases b <;> simp_all [coincide]
  | .symbol _ _, b, h => by cases b <;> simp_all [coincide]
  | .list _ xs, b, h => by
    cases b <;> simp only [coincide, Bool.false_eq_true, Bool.and_eq_true, beq_iff_eq] at h
    rw [h.1, eq_of_coincideAll h.2]
  | .vector _ xs, b, h => by
    cases b <;> simp only [coincide, Bool.false_eq_true, Bool.and_eq_true, beq_iff_eq] at h
    rw [h.1, eq_of_coincideAll h.2]
  | .set _ xs, b, h => by
    cases b <;> simp only [coincide, Bool.false_eq_true, Bool.and_eq_true, beq_iff_eq] at h
    rw [h.1, eq_of_coincideAll h.2]
  | .map _ xs, b, h => by
    cases b <;> simp only [coincide, Bool.false_eq_true, Bool.and_eq_true, beq_iff_eq] at h
    rw [h.1, eq_of_coincideEntries h.2]

theorem eq_of_coincideAll : ∀ {xs ys : List Node}, coincideAll xs ys = true → xs = ys
  | [], ys, h => by cases ys <;> simp_all [coincideAll]
  | x :: xs, ys, h => by
    cases ys <;> simp only [coincideAll, Bool.false_eq_true, Bool.and_eq_true] at h
    rw [eq_of_coincide h.1, eq_of_coincideAll h.2]

theorem eq_of_coincideEntries :
    ∀ {xs ys : List (Node × Node)}, coincideEntries xs ys = true → xs = ys
  | [], ys, h => by cases ys <;> simp_all [coincideEntries]
  | (k, v) :: xs, ys, h => by
    cases ys <;> simp only [coincideEntries, Bool.false_eq_true, Bool.and_eq_true] at h
    rw [eq_of_coincide h.1.1, eq_of_coincide h.1.2, eq_of_coincideEntries h.2]

end

mutual

theorem coincide_self : ∀ a : Node, a.coincide a = true
  | .absent | .nil _ | .bool _ _ | .int _ _ | .float _ _ | .str _ _ | .keyword _ _
  | .symbol _ _ => by simp [coincide]
  | .list _ xs | .vector _ xs | .set _ xs => by simp [coincide, coincideAll_self xs]
  | .map _ xs => by simp [coincide, coincideEntries_self xs]

theorem coincideAll_self : ∀ xs : List Node, coincideAll xs xs = true
  | [] => rfl
  | x :: xs => by simp [coincideAll, coincide_self x, coincideAll_self xs]

theorem coincideEntries_self : ∀ xs : List (Node × Node), coincideEntries xs xs = true
  | [] => rfl
  | (k, v) :: xs => by
    simp [coincideEntries, coincide_self k, coincide_self v, coincideEntries_self xs]

end

/-- Whether two nodes are one and the same. Nodes at one place in memory are, so their contents are
not gone through. -/
def same (a b : Node) : Bool :=
  withPtrEq a b (fun _ => a.coincide b) fun h => h ▸ coincide_self a

theorem same_iff {a b : Node} : a.same b = true ↔ a = b :=
  ⟨eq_of_coincide, fun h => h ▸ coincide_self a⟩

theorem same_self (a : Node) : a.same a = true := same_iff.2 rfl

instance : DecidableEq Node := fun _ _ => decidable_of_iff _ same_iff

end Node

end Equate
