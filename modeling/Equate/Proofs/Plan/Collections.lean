import Equate.Proofs.Node.SameValue
import Equate.Proofs.Plan.Equality
/-!
# Collections of one kind

Structural equality matches the elements of two sets one by one and looks at no hash. A comparison
of sequences without regard to order groups elements by their hashes and counts the classes. Both
come to equality of multisets, `CollectionPair.equal_iff` and `Sequence.equal_some_iff`, so they
agree on all sets, also where elements that differ have one hash; with regard to order both go place
by place. Hence a member that holds a collection can be compared under either strategy.
-/

namespace Equate

open Multiset

/-! ## Pairs of collections -/

/-- Two collections of one kind with their elements. The flag tells whether the kind has an
order. -/
inductive CollectionPair : Bool → Node → Node → List Node → List Node → Prop
  | list (m n : Mark) (xs ys : List Node) : CollectionPair true (.list m xs) (.list n ys) xs ys
  | vector (m n : Mark) (xs ys : List Node) :
    CollectionPair true (.vector m xs) (.vector n ys) xs ys
  | set (m n : Mark) (xs ys : List Node) : CollectionPair false (.set m xs) (.set n ys) xs ys

variable {ordered : Bool} {a b : Node} {xs ys : List Node}

/-- What makes two sequences of nodes equal, where `R` is equality of their elements. -/
def ElementsAgree {α : Type} (R : α → α → Prop) (ordered : Bool) (xs ys : List α) : Prop :=
  if ordered then List.Forall₂ R xs ys else Rel R (xs : Multiset α) ys

namespace CollectionPair

/-- Structural equality, with the search for partners left out. -/
theorem equal_iff (h : CollectionPair ordered a b xs ys) :
    a.equal b = true ↔ ElementsAgree Node.Equal ordered xs ys := by
  rw [← Node.agree_iff]
  -- a collection is no nil, and as the same node it has elements that equal themselves
  cases h with
  | list m n =>
    refine ⟨fun h => ?_, .list m n⟩
    cases h with
    | same => exact List.forall₂_same.2 fun x _ => Node.equal_self x
    | nil ha => cases ha
    | list _ _ h => exact h
  | vector m n =>
    refine ⟨fun h => ?_, .vector m n⟩
    cases h with
    | same => exact List.forall₂_same.2 fun x _ => Node.equal_self x
    | nil ha => cases ha
    | vector _ _ h => exact h
  | set m n =>
    refine ⟨fun h => ?_, .set m n⟩
    cases h with
    | same => exact rel_refl_of_refl_on fun x _ => Node.equal_self x
    | nil ha => cases ha
    | set _ _ h => exact h

theorem sequenceOf?_left (h : CollectionPair ordered a b xs ys) :
    sequenceOf? a = some (some xs) := by
  cases h <;> rfl

theorem sequenceOf?_right (h : CollectionPair ordered a b xs ys) :
    sequenceOf? b = some (some ys) := by
  cases h <;> rfl

theorem elements_eq (h : CollectionPair ordered a b xs ys) (hab : a = b) : xs = ys := by
  cases h <;> cases hab <;> rfl

end CollectionPair

/-- Equality of sequences, with the classes left out. -/
theorem Sequence.equal_some_iff {α : Type} {cmp : Comparison α} (hc : cmp.Consistent)
    {ordered : Bool} {xs ys : List α} :
    Sequence.equal cmp ordered (some xs) (some ys) = true ↔
      ElementsAgree (fun x y => cmp.equal x y = true) ordered xs ys := by
  cases ordered with
  | true => exact equalInOrder_iff
  | false => exact equalUnordered_iff_rel hc

/-! ## The two algorithms -/

/-- Nodes compared and hashed by their contents. -/
def Node.comparison : Comparison Node := ⟨Node.equal, Node.hash⟩

theorem Node.comparison_lawful : Node.comparison.Lawful :=
  elementComparison_lawful Node.identityWord true

theorem CollectionPair.equal_eq (h : CollectionPair ordered a b xs ys) :
    a.equal b = Sequence.equal Node.comparison ordered (some xs) (some ys) := by
  rw [Bool.eq_iff_iff, h.equal_iff, Sequence.equal_some_iff Node.comparison_lawful.toConsistent]
  rfl

theorem CollectionPair.sequenceValuesEqual_eq (h : CollectionPair ordered a b xs ys) :
    sequenceValuesEqual ordered true a b = a.equal b := by
  unfold sequenceValuesEqual
  rw [h.sequenceOf?_left, h.sequenceOf?_right, h.equal_eq, Bool.eq_iff_iff]
  refine Sequence.equalObjects_iff Node.comparison_lawful fun hsame => ?_
  rw [h.elements_eq (Node.same_iff.1 hsame)]

/-- Two sets are equal exactly if their elements are as sequences without order, two lists or two
vectors exactly if their elements are as sequences in order; whether the comparison of sequences is
told that they are one object makes no difference. So of an entry that includes a member and one
that takes it for a sequence of nodes, both decide alike on two collections of one kind. -/
theorem collections_compare_alike :
    (∀ ordered a b xs ys, CollectionPair ordered a b xs ys →
      a.equal b = Sequence.equal Node.comparison ordered (some xs) (some ys) ∧
      ∀ sameObject, (sameObject = true → xs = ys) →
        a.equal b = Sequence.equalObjects Node.comparison ordered sameObject (some xs) (some ys)) ∧
    ∀ (companions : Companions) (type : Bytes) (member : Member) (order order' : Option Int)
      (ordered : Bool), ∃ included sequence,
        ContractEntry.link companions type ⟨member, .include order⟩ = .ok (some included) ∧
        ContractEntry.link companions type ⟨member, .sequence order' ordered true⟩ =
          .ok (some sequence) ∧
        ∀ (a b : Instance) xs ys,
          CollectionPair ordered (a.value member.name) (b.value member.name) xs ys →
          included.compare a b = sequence.compare a b := by
  refine ⟨fun ordered a b xs ys h => ⟨h.equal_eq, fun sameObject hobject => ?_⟩, ?_⟩
  · rw [h.equal_eq, Bool.eq_iff_iff]
    exact (Sequence.equalObjects_iff Node.comparison_lawful fun hsame =>
      congrArg some (hobject hsame)).symm
  · intro companions type member order order' ordered
    refine ⟨.include member.name, .sequence member.name ordered true, rfl, rfl, ?_⟩
    intro a b xs ys h
    rw [PlanStep.compare, PlanStep.compare, h.sequenceValuesEqual_eq]

/-- Elements with repetitions: a nil and an integer that have one hash, a node that is NaN, and a
set. -/
def jumbledElements : List Node :=
  let number : Node := .int ⟨0, none⟩ 5092752420494948948
  let nan : Node := .float ⟨1, none⟩ ⟨0x7ff8000000000000⟩
  let set : Node := .set ⟨2, none⟩ [.int ⟨3, none⟩ 1, .int ⟨4, none⟩ 2]
  [.nil ⟨5, none⟩, number, nan, nan, set, number]

/-- The same elements in another order, up to the one given for NaN. -/
def shuffledElements (nan : Node) : List Node :=
  let number : Node := .int ⟨6, none⟩ 5092752420494948948
  let set : Node := .set ⟨7, none⟩ [.int ⟨8, none⟩ 2, .int ⟨9, none⟩ 1]
  [number, set, nan, .absent, number, .float ⟨1, none⟩ ⟨0x7ff8000000000000⟩]

/-- A bag of such elements. -/
def bag (mark : Mark) (elements : List Node) : Instance :=
  { type := "Bag", members := [("elements", .set mark elements)] }

theorem collections_compare_alike_jumbled :
    (jumbledElements.map Node.hash)[0]? = (jumbledElements.map Node.hash)[1]? ∧
      (Node.set ⟨10, none⟩ jumbledElements).equal (.set ⟨11, none⟩
        (shuffledElements (.float ⟨1, none⟩ ⟨0x7ff8000000000000⟩))) = true ∧
      (Node.set ⟨10, none⟩ jumbledElements).equal (.set ⟨11, none⟩
        (shuffledElements (.float ⟨12, none⟩ ⟨0x7ff8000000000000⟩))) = false ∧
      ∃ included sequence,
        ContractEntry.link ⟨fun _ => none, fun _ => none⟩ "Bag"
          ⟨{ name := "elements", kind := .property }, .include none⟩ = .ok (some included) ∧
        ContractEntry.link ⟨fun _ => none, fun _ => none⟩ "Bag"
          ⟨{ name := "elements", kind := .property }, .sequence none false true⟩ =
            .ok (some sequence) ∧
        included.compare (bag ⟨10, none⟩ jumbledElements)
            (bag ⟨11, none⟩ (shuffledElements .absent)) =
          sequence.compare (bag ⟨10, none⟩ jumbledElements)
            (bag ⟨11, none⟩ (shuffledElements .absent)) := by
  refine ⟨by decide, ?_, ?_, ?_⟩
  · rw [(collections_compare_alike.1 _ _ _ _ _ (.set _ _ _ _)).1]
    decide +kernel
  · rw [(collections_compare_alike.1 _ _ _ _ _ (.set _ _ _ _)).1]
    decide +kernel
  · obtain ⟨included, sequence, hincluded, hsequence, h⟩ :=
      collections_compare_alike.2 ⟨fun _ => none, fun _ => none⟩ "Bag"
        { name := "elements", kind := .property } none none false
    exact ⟨included, sequence, hincluded, hsequence, h _ _ _ _ (.set _ _ _ _)⟩

end Equate
