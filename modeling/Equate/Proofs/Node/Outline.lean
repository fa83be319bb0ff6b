import Equate.Proofs.Node.Hash
/-!
# Outlines

The outline of a node is what equality and the places of all nodes in preorder tell about it. Both
tell nothing about which element of a set or map stands where, and equality does not see the sign
of a zero; so the contents of sets, maps and floats are left out, and so is all of a mark but the
place it tells. `outline_eq_of_equal` is the main result.
-/

namespace Equate

/-- A mark that keeps the place of a mark only. -/
def Mark.outline (m : Mark) : Mark := ⟨0, m.span?.map fun s => ⟨s.first, s.first⟩⟩

@[simp] theorem Mark.location_outline (m : Mark) : m.outline.location = m.location := by
  obtain ⟨origin, _ | s⟩ := m <;> rfl

theorem Mark.outline_eq {m n : Mark} (h : m.location = n.location) : m.outline = n.outline := by
  obtain ⟨_, s⟩ := m
  obtain ⟨_, t⟩ := n
  -- an unknown place is no place of a text, where lines count from 1
  cases s with
  | none =>
    cases t with
    | none => rfl
    | some t =>
      simp only [location, Location.unknown, Location.ofPosition, Location.mk.injEq] at h
      omega
  | some s =>
    cases t with
    | none =>
      simp only [location, Location.unknown, Location.ofPosition, Location.mk.injEq] at h
      omega
    | some t =>
      obtain ⟨⟨line, column⟩, _⟩ := s
      obtain ⟨⟨line', column'⟩, _⟩ := t
      simp only [location, Location.ofPosition, Location.mk.injEq, Int.natCast_inj] at h
      obtain ⟨rfl, rfl⟩ := h
      rfl

namespace Node

mutual

/-- The node without the contents of sets, maps and floats. -/
def outline : Node → Node
  | .absent => .absent
  | .nil m => .nil m.outline
  | .bool m b => .bool m.outline b
  | .int m i => .int m.outline i
  | .float m _ => .float m.outline ⟨0⟩
  | .str m s => .str m.outline s
  | .keyword m s => .keyword m.outline s
  | .symbol m s => .symbol m.outline s
  | .list m xs => .list m.outline (outlines xs)
  | .vector m xs => .vector m.outline (outlines xs)
  | .set m _ => .set m.outline []
  | .map m _ => .map m.outline []
termination_by structural x => x

def outlines : List Node → List Node
  | [] => []
  | x :: xs => x.outline :: outlines xs
termination_by structural x => x

end

@[simp] theorem outlines_eq_map (xs : List Node) : outlines xs = xs.map outline := by
  induction xs with
  | nil => rfl
  | cons x xs ih => rw [outlines, ih, List.map_cons]

/-! ## What an outline keeps -/

@[simp] theorem location_outline (n : Node) : n.outline.location = n.location := by
  cases n <;> simp [outline, location, mark?]

@[simp] theorem head_outline (n : Node) : n.outline.head = n.head := by
  cases n with
  | list m xs =>
    cases xs with
    | nil => rfl
    | cons x xs => cases x <;> rfl
  | _ => rfl

/-! ## Places -/

mutual

/-- The places of a node and of all nodes below it in preorder; an absent node has none. -/
def places : Node → List (Option Location)
  | .absent => [none]
  | .list m xs | .vector m xs | .set m xs => some m.location :: placesAll xs
  | .map m es => some m.location :: placesEntries es
  | .nil m | .bool m _ | .int m _ | .float m _ | .str m _ | .keyword m _ | .symbol m _ =>
    [some m.location]
termination_by structural x => x

def placesAll : List Node → List (Option Location)
  | [] => []
  | x :: xs => x.places ++ placesAll xs
termination_by structural x => x

def placesEntries : List (Node × Node) → List (Option Location)
  | [] => []
  | (k, v) :: es => k.places ++ v.places ++ placesEntries es
termination_by structural x => x

end

/-- The words for a place. -/
def placeWords : Option Location → List UInt64
  | none => [0]
  | some l => [(Int64.ofInt l.line).toUInt64, (Int64.ofInt l.column).toUInt64]

mutual

theorem positionWords_eq : ∀ n : Node, n.positionWords = n.places.flatMap placeWords
  | .absent | .nil _ | .bool _ _ | .int _ _ | .float _ _ | .str _ _ | .keyword _ _
  | .symbol _ _ => rfl
  | .list m xs | .vector m xs | .set m xs => by
    rw [positionWords, positionWordsAll_eq, places, List.flatMap_cons]
    rfl
  | .map m es => by
    rw [positionWords, positionWordsEntries_eq, places, List.flatMap_cons]
    rfl

theorem positionWordsAll_eq : ∀ xs : List Node,
    positionWordsAll xs = (placesAll xs).flatMap placeWords
  | [] => rfl
  | x :: xs => by
    rw [positionWordsAll, positionWords_eq, positionWordsAll_eq, placesAll, List.flatMap_append]

theorem positionWordsEntries_eq : ∀ es : List (Node × Node),
    positionWordsEntries es = (placesEntries es).flatMap placeWords
  | [] => rfl
  | (k, v) :: es => by
    rw [positionWordsEntries, positionWords_eq k, positionWords_eq v, positionWordsEntries_eq,
      placesEntries, List.flatMap_append, List.flatMap_append]

end

/-- Equal nodes with their nodes at the same places have the same hash with positions. -/
theorem positionedHash_eq_of_equal {a b : Node} (h : a.equal b = true)
    (hplaces : a.places = b.places) : a.positionedHash = b.positionedHash := by
  rw [positionedHash_eq, positionedHash_eq, (SameValue.of_equal h).hash_eq, positionWords_eq,
    positionWords_eq, hplaces]

/-! ## Sizes -/

theorem placesAll_eq (xs : List Node) : placesAll xs = xs.flatMap places := by
  induction xs with
  | nil => rfl
  | cons x xs ih => rw [placesAll, ih, List.flatMap_cons]

theorem placesEntries_eq (es : List (Node × Node)) :
    placesEntries es = es.flatMap fun e => e.1.places ++ e.2.places := by
  induction es with
  | nil => rfl
  | cons e es ih => rw [placesEntries, ih, List.flatMap_cons]

theorem length_places_of_isNil {a : Node} (h : a.isNil = true) : a.places.length = 1 := by
  cases a <;> first | rfl | cases h

theorem length_flatMap_eq_of_forall₂ {xs ys : List Node}
    (h : List.Forall₂ (fun x y => x.places.length = y.places.length) xs ys) :
    (xs.flatMap places).length = (ys.flatMap places).length := by
  induction h with
  | nil => rfl
  | cons hxy _ ih => simp only [List.flatMap_cons, List.length_append, hxy, ih]

/-- The number of nodes is made from the numbers for the children. -/
theorem length_places_of_agree {a b : Node}
    (h : Agree (fun x y => x.places.length = y.places.length) a b) :
    a.places.length = b.places.length := by
  cases h with
  | same => rfl
  | nil ha hb => rw [length_places_of_isNil ha, length_places_of_isNil hb]
  | bool | int | float | str | keyword | symbol => rfl
  | list m n h | vector m n h =>
    simp only [places, placesAll_eq, List.length_cons, length_flatMap_eq_of_forall₂ h]
  | set m n h =>
    have hperm := map_perm_of_rel (f := fun x : Node => x.places.length)
      (g := fun x : Node => x.places.length) (fun x _ y _ hxy => hxy) h
    simp only [places, placesAll_eq, List.length_cons, List.length_flatMap, hperm.sum_nat]
  | map m n h =>
    have hperm := map_perm_of_rel (f := fun e => (e.1.places ++ e.2.places).length)
      (g := fun e => (e.1.places ++ e.2.places).length)
      (fun e _ f _ hef => by rw [List.length_append, List.length_append, hef.1, hef.2]) h
    simp only [places, placesEntries_eq, List.length_cons, List.length_flatMap, hperm.sum_nat]

theorem length_places_of_equal {a b : Node} (h : a.equal b = true) :
    a.places.length = b.places.length :=
  length_places_of_agree ((agree_of_equal h).imp fun _ _ _ _ hxy => length_places_of_equal hxy)
termination_by sizeOf a

/-! ## Equal nodes at the same places -/

/-- Children that are equal one by one are at the same places one by one. -/
theorem forall₂_places_eq {xs ys : List Node} (h : List.Forall₂ Equal xs ys)
    (hplaces : placesAll xs = placesAll ys) :
    List.Forall₂ (fun x y => Equal x y ∧ x.places = y.places) xs ys := by
  induction h with
  | nil => exact .nil
  | cons hxy _ ih =>
    rw [placesAll, placesAll] at hplaces
    obtain ⟨hx, hxs⟩ := List.append_inj hplaces (length_places_of_equal hxy)
    exact .cons ⟨hxy, hx⟩ (ih hxs)

theorem map_outline_eq_of_forall₂ {xs ys : List Node}
    (h : List.Forall₂ (fun x y => x.outline = y.outline) xs ys) :
    xs.map outline = ys.map outline := by
  induction h with
  | nil => rfl
  | cons hxy _ ih => rw [List.map_cons, List.map_cons, hxy, ih]

/-- Equal nodes with their nodes at the same places have the same outline. -/
theorem outline_eq_of_equal {a b : Node} (h : a.equal b = true)
    (hplaces : a.places = b.places) : a.outline = b.outline := by
  have below {xs ys : List Node} (hxs : ∀ x ∈ xs, sizeOf x < sizeOf a)
      (h : List.Forall₂ Equal xs ys) (hplaces : placesAll xs = placesAll ys) :
      xs.map outline = ys.map outline := by
    refine map_outline_eq_of_forall₂ (forall₂_imp_mem ?_ (forall₂_places_eq h hplaces))
    intro x hx y _ hxy
    have := hxs x hx
    exact outline_eq_of_equal hxy.1 hxy.2
  cases agree_of_equal h with
  | same => rfl
  | nil ha hb =>
    cases a <;> cases ha <;> cases b <;> cases hb <;>
      simp only [places, List.cons.injEq, Option.some.injEq, reduceCtorEq, false_and] at hplaces
    · rfl
    · rw [outline, outline, Mark.outline_eq hplaces.1]
  | bool | int | float | str | keyword | symbol =>
    simp only [places, List.cons.injEq, Option.some.injEq] at hplaces
    simp only [outline, Mark.outline_eq hplaces.1]
  | list m n hall =>
    simp only [places, List.cons.injEq, Option.some.injEq] at hplaces
    have hxs := below (fun x hx => (sizeOf_lt_of_mem m hx).1) hall hplaces.2
    simp only [outline, outlines_eq_map, Mark.outline_eq hplaces.1, hxs]
  | vector m n hall =>
    simp only [places, List.cons.injEq, Option.some.injEq] at hplaces
    have hxs := below (fun x hx => (sizeOf_lt_of_mem m hx).2.1) hall hplaces.2
    simp only [outline, outlines_eq_map, Mark.outline_eq hplaces.1, hxs]
  | set | map =>
    -- a pairing says nothing about which element stands where, so the contents had to go
    simp only [places, List.cons.injEq, Option.some.injEq] at hplaces
    simp only [outline, Mark.outline_eq hplaces.1]
termination_by sizeOf a

end Node

end Equate
