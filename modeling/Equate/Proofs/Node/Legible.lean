import Equate.Proofs.Node.Atom
/-!
# What the reader gives

A form that was read is an atom or a collection of forms that were read: `readForm_induction` is
the rule. By it every node of a text is `Legible`: it is there, and its words are such that they
are read as what they are. No double of a text is NaN.
-/

namespace Equate

variable {origin : Nat}

/-! ## Induction over readings -/

theorem readForm_cases {fuel : Nat} {c c' : Cursor} {v : Node}
    (h : readForm origin (fuel + 1) c = .ok (v, c')) :
    readAtom origin c.skipSeparators = .ok (v, c') ∨
      ∃ bracket items behind, bracket? c.skipSeparators.rest = .ok (some bracket) ∧
        readItems origin fuel bracket.closing (c.skipSeparators.skip bracket.opening.length) =
          .ok (items, behind) ∧
        closeCollection origin c.skipSeparators bracket items behind = .ok (v, c') := by
  rw [readForm] at h
  split at h
  · cases h
  · exact .inl h
  · rename_i bracket hbracket
    split at h
    · cases h
    · rename_i items behind hitems
      exact .inr ⟨bracket, items, behind, hbracket, hitems, h⟩

theorem readItems_cases {fuel : Nat} {closing : UInt8} {c c' : Cursor} {items : List Node}
    (h : readItems origin (fuel + 1) closing c = .ok (items, c')) :
    items = [] ∧ c' = c.skipSeparators ∧ (c'.rest = [] ∨ ∃ t, c'.rest = closing :: t) ∨
      ∃ x xs between, readForm origin fuel c.skipSeparators = .ok (x, between) ∧
        readItems origin fuel closing between = .ok (xs, c') ∧ items = x :: xs := by
  rw [readItems] at h
  split at h
  · rename_i hend
    cases h
    refine .inl ⟨rfl, rfl, ?_⟩
    simpa [List.head?_eq_some_iff] using hend
  · split at h
    · cases h
    · rename_i x between hx
      split at h
      · cases h
      · rename_i xs behind hxs
        cases h
        exact .inr ⟨x, xs, between, hx, hxs, rfl⟩

/-- What holds of atoms and passes from the items of a collection to the collection holds of every
node that is read. -/
theorem readForm_induction {motive : Node → Prop}
    (atom : ∀ {c c' v}, readAtom origin c = .ok (v, c') → motive v)
    (collection : ∀ {bracket mark items v}, (∀ x ∈ items, motive x) →
      Bracket.node? bracket mark items = some v → motive v) (fuel : Nat) :
    (∀ c v c', readForm origin fuel c = .ok (v, c') → motive v) ∧
      ∀ closing c items c', readItems origin fuel closing c = .ok (items, c') →
        ∀ x ∈ items, motive x := by
  induction fuel with
  | zero =>
    constructor
    · intro c v c' h
      rw [readForm.eq_def] at h
      cases h
    · intro closing c items c' h
      rw [readItems.eq_def] at h
      cases h
  | succ fuel ih =>
    refine ⟨fun c v c' h => ?_, fun closing c items c' h x hx => ?_⟩
    · rcases readForm_cases h with h | ⟨bracket, items, behind, -, hitems, hclose⟩
      · exact atom h
      · rw [closeCollection] at hclose
        split at hclose
        · cases hclose
        · split at hclose
          · rename_i node hnode
            cases hclose
            exact collection (ih.2 _ _ _ _ hitems) hnode
          · cases hclose
    · rcases readItems_cases h with ⟨rfl, -⟩ | ⟨y, ys, between, hy, hys, rfl⟩
      · cases hx
      · rcases List.mem_cons.1 hx with rfl | hx
        · exact ih.1 _ _ _ hy
        · exact ih.2 _ _ _ _ hys x hx

theorem readForm_of_read {text : Bytes} {v : Node} (h : Node.read text origin = .ok v) :
    ∃ c, readForm origin (2 * text.length + 2) (.start text) = .ok (v, c) ∧
      c.skipSeparators.rest = [] := by
  rw [Node.read] at h
  split at h
  · cases h
  · rename_i node c hform
    dsimp only at h
    split at h
    · rename_i hend
      cases h
      exact ⟨c, hform, List.isEmpty_iff.1 hend⟩
    · cases h

/-! ## Words -/

/-- Whether a word is read as a symbol. -/
structure IsSymbolName (s : Bytes) : Prop where
  starts : ∃ b bs, s = b :: bs ∧ startsSymbol b = true
  continues : ∀ b ∈ s, continuesSymbol b = true
  notNumeral : Numeral.starts s = false
  notReserved : s ≠ utf8 "nil" ∧ s ≠ utf8 "true" ∧ s ≠ utf8 "false"

namespace Node

mutual

/-- Whether the node is there and its words are read as what they are, throughout. -/
def Legible : Node → Prop
  | .absent => False
  | .nil _ | .bool _ _ | .int _ _ | .float _ _ | .str _ _ => True
  | .keyword _ k => IsKeywordName k
  | .symbol _ s => IsSymbolName s
  | .list _ xs | .vector _ xs | .set _ xs => AreLegible xs
  | .map _ es => EntriesLegible es
termination_by structural x => x

def AreLegible : List Node → Prop
  | [] => True
  | x :: xs => x.Legible ∧ AreLegible xs
termination_by structural x => x

def EntriesLegible : List (Node × Node) → Prop
  | [] => True
  | (k, v) :: es => (k.Legible ∧ v.Legible) ∧ EntriesLegible es
termination_by structural x => x

end

@[simp] theorem areLegible_iff {xs : List Node} : AreLegible xs ↔ ∀ x ∈ xs, x.Legible := by
  induction xs with
  | nil => simp [AreLegible]
  | cons x xs ih => simp [AreLegible, ih]

@[simp] theorem entriesLegible_iff {es : List (Node × Node)} :
    EntriesLegible es ↔ ∀ e ∈ es, e.1.Legible ∧ e.2.Legible := by
  induction es with
  | nil => simp [EntriesLegible]
  | cons e es ih => simp [EntriesLegible, ih]

end Node

/-! ## Atoms -/

theorem legible_wordNode {s : Bytes} (hstarts : ∃ b bs, s = b :: bs ∧ startsSymbol b = true)
    (hcontinues : ∀ b ∈ s, continuesSymbol b = true) (hnumeral : Numeral.starts s = false)
    (mark : Mark) : (wordNode mark s).Legible := by
  unfold wordNode
  split
  · trivial
  split
  · trivial
  split
  · trivial
  · rename_i hnil htrue hfalse
    exact ⟨hstarts, hcontinues, hnumeral, hnil, htrue, hfalse⟩

theorem legible_of_readAtom {c c' : Cursor} {v : Node} (h : readAtom origin c = .ok (v, c')) :
    v.Legible := by
  obtain ⟨s, make, hatom, -, rfl⟩ := atomAt_of_readAtom h
  cases hatom with
  | str | int | float => trivial
  | keyword hk => exact hk
  | word hstarts hcontinues hnumeral => exact legible_wordNode hstarts hcontinues hnumeral _

theorem hasNoNaN_of_readAtom {c c' : Cursor} {v : Node} (h : readAtom origin c = .ok (v, c')) :
    v.HasNoNaN := by
  obtain ⟨s, make, hatom, -, rfl⟩ := atomAt_of_readAtom h
  intro m x hoccurs
  have heq := hoccurs.eq_of_children_eq_nil (hatom.isLeaf_make _).children
  cases hatom with
  | float _ _ _ hx =>
    cases heq
    exact Binary64.isNaN_ofDecimal? hx
  | word =>
    unfold wordNode at heq
    repeat' split at heq
    all_goals cases heq
  | _ => cases heq

/-! ## Collections -/

theorem legible_of_node? {bracket : Bracket} {mark : Mark} {items : List Node} {v : Node}
    (hitems : ∀ x ∈ items, x.Legible) (h : bracket.node? mark items = some v) : v.Legible := by
  cases bracket with
  | list | vector | set =>
    cases h
    exact Node.areLegible_iff.2 hitems
  | map =>
    obtain ⟨es, hes, rfl⟩ := Option.map_eq_some_iff.1 h
    rw [← flatMap_of_pairUp hes] at hitems
    exact Node.entriesLegible_iff.2 fun e he =>
      ⟨hitems _ ((Node.mem_children_map (m := mark)).2 ⟨e, he, .inl rfl⟩),
        hitems _ ((Node.mem_children_map (m := mark)).2 ⟨e, he, .inr rfl⟩)⟩

theorem Node.Legible.of_mem_children {x v : Node} (h : v.Legible) (hx : x ∈ v.children) :
    x.Legible := by
  cases v with
  | list | vector | set => exact areLegible_iff.1 h x hx
  | map =>
    obtain ⟨e, he, rfl | rfl⟩ := mem_children_map.1 hx
    · exact (entriesLegible_iff.1 h e he).1
    · exact (entriesLegible_iff.1 h e he).2
  | _ => cases hx

theorem Node.Legible.of_occurs {n v : Node} (hn : n.Occurs v) (h : v.Legible) : n.Legible := by
  induction hn with
  | self => exact h
  | child hx _ ih => exact ih (h.of_mem_children hx)

theorem Node.legible_of_read {text : Bytes} {v : Node} (h : read text origin = .ok v) :
    v.Legible := by
  obtain ⟨c, hform, -⟩ := readForm_of_read h
  exact (readForm_induction legible_of_readAtom legible_of_node? _).1 _ _ _ hform

/-- Whether the node was read, on its own or in another one. -/
def Node.IsRead (n : Node) : Prop :=
  ∃ text origin v, read text origin = .ok v ∧ n.Occurs v

theorem Node.IsRead.legible {n : Node} (h : n.IsRead) : n.Legible := by
  obtain ⟨text, origin, v, hread, hn⟩ := h
  exact (legible_of_read hread).of_occurs hn

theorem hasNoNaN_of_node? {bracket : Bracket} {mark : Mark} {items : List Node} {v : Node}
    (hitems : ∀ x ∈ items, x.HasNoNaN) (h : bracket.node? mark items = some v) : v.HasNoNaN := by
  obtain ⟨-, hbracket, rfl⟩ := Bracket.of_node? h
  intro m x hx
  cases hx with
  | self => cases hbracket
  | child hy hx => exact hitems _ hy m x hx

theorem Node.hasNoNaN_of_read {text : Bytes} {v : Node} (h : read text origin = .ok v) :
    v.HasNoNaN := by
  obtain ⟨c, hform, -⟩ := readForm_of_read h
  exact (readForm_induction hasNoNaN_of_readAtom hasNoNaN_of_node? _).1 _ _ _ hform

end Equate
