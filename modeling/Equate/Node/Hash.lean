import Equate.Hash
import Equate.Node.Basic
/-!
# Hashing trees

`Node.hash` agrees with structural equality: nodes that are equal have the same hash. The elements
of sets and maps are combined by a sum, which does not depend on their order.
`Node.positionedHash` adds the positions of all nodes in preorder, which `Node.positionWords` lists.
-/

namespace Equate.Node

/-- The hash of every nil. -/
def nilHash : UInt64 := 0x6e696c

/-- The sum of words, each mixed first. -/
def mixedSum (words : List UInt64) : UInt64 := words.foldl (fun sum w => sum + mix w) 0

mutual

def hash : Node → UInt64
  | .absent | .nil _ => nilHash
  | .bool _ b => ((Hasher.start 2).add (if b then 1 else 0)).finish
  | .int _ i => ((Hasher.start 3).add i.toUInt64).finish
  | .float _ x => ((Hasher.start 4).add x.hashWord).finish
  | .str _ s => ((Hasher.start 5).add (fnv1a s)).finish
  | .keyword _ s => ((Hasher.start 6).add (fnv1a s)).finish
  | .symbol _ s => ((Hasher.start 7).add (fnv1a s)).finish
  | .list _ xs => ((Hasher.start 8).addAll (hashes xs)).finish
  | .vector _ xs => ((Hasher.start 9).addAll (hashes xs)).finish
  | .set _ xs => (((Hasher.start 10).add xs.length.toUInt64).add (mixedSum (hashes xs))).finish
  | .map _ es => (((Hasher.start 11).add es.length.toUInt64).add (mixedSum (entryHashes es))).finish
termination_by structural x => x

def hashes : List Node → List UInt64
  | [] => []
  | x :: xs => x.hash :: hashes xs
termination_by structural x => x

/-- One word per entry, the value's hash folded into the key's. -/
def entryHashes : List (Node × Node) → List UInt64
  | [] => []
  | (k, v) :: es => ((Hasher.start k.hash).add v.hash).finish :: entryHashes es
termination_by structural x => x

end

/-! ## Positions -/

/-- Line and column as words; negative numbers wrap around. -/
def markWords (m : Mark) : List UInt64 :=
  [(Int64.ofInt m.location.line).toUInt64, (Int64.ofInt m.location.column).toUInt64]

mutual

/-- Line and column of every node in preorder; an absent node gives a single zero. -/
def positionWords : Node → List UInt64
  | .absent => [0]
  | .list m xs => markWords m ++ positionWordsAll xs
  | .vector m xs => markWords m ++ positionWordsAll xs
  | .set m xs => markWords m ++ positionWordsAll xs
  | .map m es => markWords m ++ positionWordsEntries es
  | .nil m | .bool m _ | .int m _ | .float m _ | .str m _ | .keyword m _ | .symbol m _ =>
    markWords m
termination_by structural x => x

def positionWordsAll : List Node → List UInt64
  | [] => []
  | x :: xs => x.positionWords ++ positionWordsAll xs
termination_by structural x => x

def positionWordsEntries : List (Node × Node) → List UInt64
  | [] => []
  | (k, v) :: es => k.positionWords ++ v.positionWords ++ positionWordsEntries es
termination_by structural x => x

end

/-- A word for the identity of a node: its origin and where it starts, where nodes of one text
differ. -/
def identityWord (n : Node) : UInt64 :=
  match n.mark? with
  | none => 0
  | some m =>
    match m.span? with
    | none => m.origin.toUInt64 <<< (40 : UInt64)
    | some s =>
      m.origin.toUInt64 <<< (40 : UInt64) + s.first.line.toUInt64 <<< (20 : UInt64) +
        s.first.column.toUInt64

/-! ## Hash with positions -/

/-- Folds the position of one node in. -/
def addMark (h : Hasher) (m : Mark) : Hasher := h.addAll (markWords m)

mutual

/-- Folds the positions of a node and of all nodes below it in. -/
def addPositions (h : Hasher) : Node → Hasher
  | .absent => h.add 0
  | .list m xs | .vector m xs | .set m xs => addPositionsAll (addMark h m) xs
  | .map m es => addPositionsEntries (addMark h m) es
  | .nil m | .bool m _ | .int m _ | .float m _ | .str m _ | .keyword m _ | .symbol m _ =>
    addMark h m
termination_by structural x => x

def addPositionsAll (h : Hasher) : List Node → Hasher
  | [] => h
  | x :: xs => addPositionsAll (addPositions h x) xs
termination_by structural x => x

def addPositionsEntries (h : Hasher) : List (Node × Node) → Hasher
  | [] => h
  | (k, v) :: es => addPositionsEntries (addPositions (addPositions h k) v) es
termination_by structural x => x

end

mutual

theorem addPositions_eq : ∀ (h : Hasher) (n : Node), addPositions h n = h.addAll n.positionWords
  | _, .absent | _, .nil _ | _, .bool _ _ | _, .int _ _ | _, .float _ _ | _, .str _ _
  | _, .keyword _ _ | _, .symbol _ _ => by
    simp [addPositions, positionWords, addMark, Hasher.addAll]
  | h, .list m xs | h, .vector m xs | h, .set m xs => by
    simp [addPositions, positionWords, addMark, addPositionsAll_eq, Hasher.addAll]
  | h, .map m es => by
    simp [addPositions, positionWords, addMark, addPositionsEntries_eq, Hasher.addAll]

theorem addPositionsAll_eq : ∀ (h : Hasher) (xs : List Node),
    addPositionsAll h xs = h.addAll (positionWordsAll xs)
  | _, [] => rfl
  | h, x :: xs => by
    simp [addPositionsAll, positionWordsAll, addPositions_eq, addPositionsAll_eq, Hasher.addAll]

theorem addPositionsEntries_eq : ∀ (h : Hasher) (es : List (Node × Node)),
    addPositionsEntries h es = h.addAll (positionWordsEntries es)
  | _, [] => rfl
  | h, (k, v) :: es => by
    simp [addPositionsEntries, positionWordsEntries, addPositions_eq, addPositionsEntries_eq,
      Hasher.addAll]

end

/-- The hash of a node with its positions. -/
def positionedHash (n : Node) : UInt64 := (addPositions (Hasher.start n.hash) n).finish

theorem positionedHash_eq (n : Node) :
    n.positionedHash = ((Hasher.start n.hash).addAll n.positionWords).finish := by
  rw [positionedHash, addPositions_eq]

end Equate.Node
