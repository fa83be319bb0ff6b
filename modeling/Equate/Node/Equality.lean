import Equate.Node.Basic
/-!
# Structural equality

Two nodes are equal if they are the same node, if both are nil, or if they have the same kind and
equal contents. Lists and vectors compare place by place; sets and maps pair each element of the
left with the first unpaired equal element of the right. Marks do not count. NaN equals only
itself, as a node.
-/

namespace Equate

/-- The list without its first element that satisfies `p`, if there is one. -/
def takeFirst? {α : Type} (p : α → Bool) : List α → Option (List α)
  | [] => none
  | x :: xs => if p x then some xs else (takeFirst? p xs).map (x :: ·)

theorem takeFirst?_eq {α : Type} (p : α → Bool) (xs : List α) :
    takeFirst? p xs = if xs.any p then some (xs.eraseP p) else none := by
  induction xs with
  | nil => rfl
  | cons x xs ih => by_cases h : p x <;> by_cases h' : xs.any p <;> simp_all [takeFirst?]

namespace Node

mutual

/-- Equality of contents, for two nodes that need not be the same node. -/
def alike : Node → Node → Bool
  | .absent, b | .nil _, b => b.isNil
  | .bool _ x, .bool _ y => x == y
  | .int _ x, .int _ y => x == y
  | .float _ x, .float _ y => x.eq y
  | .str _ x, .str _ y => x == y
  | .keyword _ x, .keyword _ y => x == y
  | .symbol _ x, .symbol _ y => x == y
  | .list _ xs, .list _ ys => xs.length == ys.length && alikeInOrder xs ys
  | .vector _ xs, .vector _ ys => xs.length == ys.length && alikeInOrder xs ys
  | .set _ xs, .set _ ys => xs.length == ys.length && matchElements xs ys
  | .map _ xs, .map _ ys => xs.length == ys.length && matchEntries xs ys
  | _, _ => false
termination_by structural x => x

/-- Lists of one length with equal elements at each place. -/
def alikeInOrder : List Node → List Node → Bool
  | [], [] => true
  | x :: xs, y :: ys => (x.same y || x.alike y) && alikeInOrder xs ys
  | _, _ => false
termination_by structural x => x

/-- Every element of the left takes the first equal element of the right that is still there. -/
def matchElements : List Node → List Node → Bool
  | [], _ => true
  | x :: xs, ys =>
    match takeFirst? (fun y => x.same y || x.alike y) ys with
    | some rest => matchElements xs rest
    | none => false
termination_by structural x => x

/-- Every entry of the left takes the first entry of the right with equal key and value that is
still there. -/
def matchEntries : List (Node × Node) → List (Node × Node) → Bool
  | [], _ => true
  | (k, v) :: xs, ys =>
    match takeFirst? (fun e => (k.same e.1 || k.alike e.1) && (v.same e.2 || v.alike e.2)) ys with
    | some rest => matchEntries xs rest
    | none => false
termination_by structural x => x

end

/-- Structural equality. -/
def equal (a b : Node) : Bool := a.same b || a.alike b

end Node

end Equate
