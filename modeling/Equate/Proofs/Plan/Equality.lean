import Equate.Plan
import Equate.Proofs.Node.Hash
import Equate.Proofs.Plan.Linking
import Equate.Proofs.Sequence.Hash
/-!
# Plans compare by an equivalence that their hash respects

A sequence member is compared in one of three ways, by the shapes of both values, and
`sequenceValuesEqual_iff` says which values can meet at all: two sequences, or two values that are
none. With that every step of a plan is an equivalence and gives equal members the same words,
provided the companion functions of custom members do so; `equals_iff` carries it to whole plans.
-/

namespace Equate

open Sequence

/-! ## Elements and sequences -/

theorem elementComparison_lawful (address : Node → UInt64) (deep : Bool) :
    (elementComparison address deep).Lawful := by
  cases deep with
  | true =>
    exact ⟨⟨Node.equal_symm, Node.equal_trans, fun h => (Node.SameValue.of_equal h).hash_eq⟩,
      Node.equal_self⟩
  | false =>
    refine ⟨⟨fun h => ?_, fun hxy hyz => ?_, fun h => ?_⟩, Node.same_self⟩
    · exact Node.same_iff.2 (Node.same_iff.1 h).symm
    · exact Node.same_iff.2 ((Node.same_iff.1 hxy).trans (Node.same_iff.1 hyz))
    · rw [Node.same_iff.1 h]

/-- A value that is no sequence never equals one. -/
theorem sequenceOf?_isSome_eq {a b : Node} (h : a.equal b = true) :
    (sequenceOf? a).isSome = (sequenceOf? b).isSome := by
  cases Node.agree_of_equal h <;> simp_all [sequenceOf?, Node.isNil, Node.elements?]

/-- The ways for two values to be equal under a sequence strategy. The words that stand for the
identity of nodes do not matter. -/
theorem sequenceValuesEqual_iff (address : Node → UInt64) {orderMatters deep : Bool} {a b : Node} :
    sequenceValuesEqual orderMatters deep a b = true ↔
      a = b ∨
      (∃ s t, sequenceOf? a = some s ∧ sequenceOf? b = some t ∧
        Sequence.equal (elementComparison address deep) orderMatters s t = true) ∨
      sequenceOf? a = none ∧ sequenceOf? b = none ∧ a.equal b = true := by
  have hsome := sequenceOf?_isSome_eq (a := a) (b := b)
  have heq : (elementComparison Node.identityWord deep).equal =
      (elementComparison address deep).equal := by
    cases deep <;> rfl
  have hcongr := equal_congr (elementComparison_lawful Node.identityWord deep)
    (elementComparison_lawful address deep) heq orderMatters
  unfold sequenceValuesEqual
  cases hs : sequenceOf? a with
  | none =>
    show a.equal b = true ↔ _
    constructor
    · intro h
      have ht := hsome h
      rw [hs, Option.isSome_none] at ht
      have hb : sequenceOf? b = none :=
        Option.isNone_iff_eq_none.1 (Option.isSome_eq_false_iff.1 ht.symm)
      exact .inr (.inr ⟨rfl, hb, h⟩)
    · rintro (rfl | ⟨s, t, hs', -⟩ | ⟨-, -, h⟩)
      · exact Node.equal_self a
      · cases hs'
      · exact h
  | some s =>
    cases ht : sequenceOf? b with
    | none =>
      show a.equal b = true ↔ _
      constructor
      · intro h
        have hsome := hsome h
        rw [hs, ht] at hsome
        cases hsome
      · rintro (rfl | ⟨s', t, -, ht', -⟩ | ⟨hs', -⟩)
        · exact Node.equal_self a
        · cases ht'
        · cases hs'
    | some t =>
      show (a.same b || _) = true ↔ _
      rw [Bool.or_eq_true, Node.same_iff, hcongr]
      constructor
      · rintro (h | h)
        · exact .inl h
        · exact .inr (.inl ⟨s, t, rfl, rfl, h⟩)
      · rintro (h | ⟨s', t', hs', ht', h⟩ | ⟨hs', -⟩)
        · exact .inl h
        · cases hs'
          cases ht'
          exact .inr h
        · cases hs'

/-! ## Values under a sequence strategy -/

theorem sequenceValuesEqual_symm {orderMatters deep : Bool} {a b : Node}
    (h : sequenceValuesEqual orderMatters deep a b = true) :
    sequenceValuesEqual orderMatters deep b a = true := by
  have hc := (elementComparison_lawful Node.identityWord deep).toConsistent
  rw [sequenceValuesEqual_iff Node.identityWord] at h ⊢
  rcases h with rfl | ⟨s, t, hs, ht, h⟩ | ⟨hs, ht, h⟩
  · exact .inl rfl
  · exact .inr (.inl ⟨t, s, ht, hs, Sequence.equal_symm hc h⟩)
  · exact .inr (.inr ⟨ht, hs, Node.equal_symm h⟩)

theorem sequenceValuesEqual_trans {orderMatters deep : Bool} {a b c : Node}
    (hab : sequenceValuesEqual orderMatters deep a b = true)
    (hbc : sequenceValuesEqual orderMatters deep b c = true) :
    sequenceValuesEqual orderMatters deep a c = true := by
  have hc := (elementComparison_lawful Node.identityWord deep).toConsistent
  have hac := hab
  rw [sequenceValuesEqual_iff Node.identityWord] at hab hbc
  rcases hbc with rfl | ⟨t, u, ht, hu, hbc⟩ | ⟨ht, hu, hbc⟩
  · exact hac
  · rcases hab with rfl | ⟨s, t', hs, ht', hab⟩ | ⟨-, ht', -⟩
    · exact (sequenceValuesEqual_iff Node.identityWord).2 (.inr (.inl ⟨t, u, ht, hu, hbc⟩))
    · obtain rfl : t' = t := Option.some.inj (ht'.symm.trans ht)
      refine (sequenceValuesEqual_iff Node.identityWord).2 (.inr (.inl ⟨s, u, hs, hu, ?_⟩))
      exact Sequence.equal_trans hc hab hbc
    · cases ht'.symm.trans ht
  · rcases hab with rfl | ⟨s, t', hs, ht', hab⟩ | ⟨hs, -, hab⟩
    · exact (sequenceValuesEqual_iff Node.identityWord).2 (.inr (.inr ⟨ht, hu, hbc⟩))
    · cases ht'.symm.trans ht
    · refine (sequenceValuesEqual_iff Node.identityWord).2 (.inr (.inr ⟨hs, hu, ?_⟩))
      exact Node.equal_trans hab hbc

theorem sequenceValueWords_eq (address : Node → UInt64) {orderMatters deep : Bool} {a b : Node}
    (h : sequenceValuesEqual orderMatters deep a b = true) :
    sequenceValueWords address orderMatters deep a =
      sequenceValueWords address orderMatters deep b := by
  have hc := (elementComparison_lawful address deep).toConsistent
  rcases (sequenceValuesEqual_iff address).1 h with rfl | ⟨s, t, hs, ht, h⟩ | ⟨hs, ht, h⟩
  · rfl
  · simp only [sequenceValueWords, hs, ht]
    exact hashWords_eq_of_equal hc h
  · simp only [sequenceValueWords, hs, ht, (Node.SameValue.of_equal h).hash_eq]

/-! ## Companion functions -/

/-- `P` holds of the functions that are bound for each custom entry. -/
def Contract.EveryCompanion (companions : Companions) (c : Contract)
    (P : (Node → Node → Bool) → (Node → Int64) → Prop) : Prop :=
  ∀ e ∈ c.entries, e.strategy.isCustom = true → ∀ equals hash,
    companions.equals (equalsCompanion e.member.name) = some equals →
    companions.hashes (hashCompanion e.member.name) = some hash → P equals hash

theorem Contract.EveryCompanion.of_mem {companions : Companions} {c : Contract} {plan : Plan}
    {P : (Node → Node → Bool) → (Node → Int64) → Prop} (hP : c.EveryCompanion companions P)
    (hlink : c.link companions = .ok plan) {member : Bytes} {equals : Node → Node → Bool}
    {hash : Node → Int64} (hstep : PlanStep.custom member equals hash ∈ plan) : P equals hash := by
  obtain ⟨e, he, hlinks⟩ := (mem_plan_iff_linksTo hlink).1 hstep
  cases hlinks with
  | custom h hequals hhash => exact hP e he (by rw [h]; rfl) equals hash hequals hhash

/-! ## Plans -/

namespace Plan

theorem compareSteps_fst (a b : Instance) (plan : Plan) :
    (compareSteps a b plan).1 = plan.all fun step => (step.compare a b).1 := by
  induction plan with
  | nil => rfl
  | cons step plan ih =>
    rw [compareSteps, List.all_cons, ← ih]
    cases hsame : (step.compare a b).1 <;> simp [hsame]

/-- Instances of one type are equal if no step tells them apart. -/
theorem equals_iff {plan : Plan} {a b : Instance} :
    plan.equals a b = true ↔
      a.type = b.type ∧ ∀ step ∈ plan, (step.compare a b).1 = true := by
  unfold equals compare
  split
  · simp [compareSteps_fst, *]
  · simp [*]

/-- An equivalence for each step makes one of the plan. -/
theorem equivalence_of_steps {plan : Plan}
    (h : ∀ step ∈ plan, Equivalence fun a b : Instance => (step.compare a b).1 = true) :
    Equivalence fun a b => plan.equals a b = true := by
  constructor
  · intro a
    exact equals_iff.2 ⟨rfl, fun step hstep => (h step hstep).refl a⟩
  · intro a b hab
    obtain ⟨htype, hab⟩ := equals_iff.1 hab
    exact equals_iff.2 ⟨htype.symm, fun step hstep => (h step hstep).symm (hab step hstep)⟩
  · intro a b c hab hbc
    obtain ⟨htype, hab⟩ := equals_iff.1 hab
    obtain ⟨htype', hbc⟩ := equals_iff.1 hbc
    refine equals_iff.2 ⟨htype.trans htype', fun step hstep => ?_⟩
    exact (h step hstep).trans (hab step hstep) (hbc step hstep)

/-- Steps that give the same words make the same hash. -/
theorem hash_congr {plan : Plan} {address : Node → UInt64} {a b : Instance}
    (htype : a.type = b.type)
    (h : ∀ step ∈ plan, PlanStep.words address a step = PlanStep.words address b step) :
    plan.hash address a = plan.hash address b := by
  have hwords : plan.flatMap (PlanStep.words address a) =
      plan.flatMap (PlanStep.words address b) := by
    rw [List.flatMap_def, List.flatMap_def, List.map_congr_left h]
  rw [hash_eq, hash_eq, htype, hwords]

end Plan

/-! ## Equality of instances -/

namespace PlanStep

theorem compare_equivalence {step : PlanStep}
    (h : ∀ member equals hash, step = .custom member equals hash →
      Equivalence fun x y => equals x y = true) :
    Equivalence fun a b : Instance => (step.compare a b).1 = true := by
  cases step with
  | «include» member =>
    exact ⟨fun a => Node.equal_self _, Node.equal_symm, Node.equal_trans⟩
  | custom member equals hash =>
    have hequals := h member equals hash rfl
    exact ⟨fun a => hequals.refl _, hequals.symm, hequals.trans⟩
  | sequence member orderMatters deep =>
    refine ⟨fun a => ?_, sequenceValuesEqual_symm, sequenceValuesEqual_trans⟩
    exact (sequenceValuesEqual_iff Node.identityWord).2 (.inl rfl)

theorem words_eq_of_compare (address : Node → UInt64) {step : PlanStep}
    (hstep : ∀ member equals hash, step = .custom member equals hash →
      ∀ x y, equals x y = true → hash x = hash y) {a b : Instance}
    (h : (step.compare a b).1 = true) : step.words address a = step.words address b := by
  cases step with
  | «include» member =>
    show [(a.value member).hash] = [(b.value member).hash]
    rw [(Node.SameValue.of_equal h).hash_eq]
  | custom member equals hash =>
    show [(hash (a.value member)).toUInt64] = [(hash (b.value member)).toUInt64]
    rw [hstep member equals hash rfl _ _ h]
  | sequence member orderMatters deep => exact sequenceValueWords_eq address h

end PlanStep

namespace Plan

variable {companions : Companions} {c : Contract} {plan : Plan}

/-- Instances that are equal have the same hash, whatever words stand for the identity of nodes. -/
theorem hash_eq_of_equals (hlink : c.link companions = .ok plan)
    (hcompanions : c.EveryCompanion companions fun equals hash =>
      ∀ x y, equals x y = true → hash x = hash y)
    (address : Node → UInt64) {a b : Instance} (h : plan.equals a b = true) :
    plan.hash address a = plan.hash address b := by
  obtain ⟨htype, hsteps⟩ := equals_iff.1 h
  refine hash_congr htype fun step hstep => ?_
  refine PlanStep.words_eq_of_compare address (fun member equals hash heq => ?_) (hsteps step hstep)
  exact hcompanions.of_mem hlink (heq ▸ hstep)

/-- A person with a name in any case, two bags of nodes and an id. -/
def personContract : Contract where
  typeName := "Person"
  entries := [
    ⟨{ name := "name", kind := .field }, .custom none⟩,
    ⟨{ name := "tags", kind := .property }, .sequence none false true⟩,
    ⟨{ name := "seen", kind := .property }, .sequence none false false⟩,
    ⟨{ name := "id", kind := .property }, .include none⟩]

def foldedName (n : Node) : Bytes := n.name.map Ascii.toLower

def foldedEquals (x y : Node) : Bool := foldedName x == foldedName y

def foldedHash (x : Node) : Int64 := (fnv1a (foldedName x)).toInt64

def personCompanions : Companions where
  equals f := if f = equalsCompanion "name" then some foldedEquals else none
  hashes f := if f = hashCompanion "name" then some foldedHash else none

def personPlan : Plan :=
  [.custom "name" foldedEquals foldedHash, .sequence "tags" false true,
    .sequence "seen" false false, .include "id"]

theorem personContract_everyCompanion {P : (Node → Node → Bool) → (Node → Int64) → Prop}
    (h : P foldedEquals foldedHash) : personContract.EveryCompanion personCompanions P := by
  intro e _ _ equals hash hequals hhash
  unfold personCompanions at hequals hhash
  dsimp only at hequals hhash
  split at hequals <;> cases hequals
  split at hhash <;> cases hhash
  exact h

def ada : Instance where
  type := "Person"
  members := [
    ("name", .symbol ⟨0, none⟩ "Ada"),
    ("tags", .vector ⟨1, none⟩ [.int ⟨2, none⟩ 1, .int ⟨3, none⟩ 2, .int ⟨4, none⟩ 2]),
    ("seen", .set ⟨5, none⟩ [.nil ⟨6, none⟩, .nil ⟨7, none⟩])]

/-- The same person with the bags in another order and an id that says nothing. -/
def adaAgain : Instance where
  type := "Person"
  members := [
    ("name", .symbol ⟨8, none⟩ "ADA"),
    ("tags", .list ⟨1, none⟩ [.int ⟨2, none⟩ 2, .int ⟨3, none⟩ 1, .int ⟨4, none⟩ 2]),
    ("seen", .list ⟨5, none⟩ [.nil ⟨7, none⟩, .nil ⟨6, none⟩]),
    ("id", .nil ⟨9, none⟩)]

theorem hash_ada :
    personContract.link personCompanions = .ok personPlan ∧
      (∀ x y, foldedEquals x y = true → foldedHash x = foldedHash y) ∧
      personPlan.equals ada adaAgain = true ∧
      ∀ address, personPlan.hash address ada = personPlan.hash address adaAgain := by
  have hlink : personContract.link personCompanions = .ok personPlan := rfl
  have hfolded : ∀ x y, foldedEquals x y = true → foldedHash x = foldedHash y := by
    intro x y h
    unfold foldedHash
    rw [eq_of_beq h]
  have heq : personPlan.equals ada adaAgain = true := by decide
  exact ⟨hlink, hfolded, heq, fun address =>
    hash_eq_of_equals hlink (personContract_everyCompanion hfolded) address heq⟩

theorem equals_equivalence (hlink : c.link companions = .ok plan)
    (hcompanions : c.EveryCompanion companions fun equals _ =>
      Equivalence fun x y => equals x y = true) :
    Equivalence fun a b => plan.equals a b = true := by
  refine equivalence_of_steps fun step hstep => ?_
  refine PlanStep.compare_equivalence fun member equals hash heq => ?_
  exact hcompanions.of_mem hlink (heq ▸ hstep)

theorem equals_equivalence_person :
    personContract.link personCompanions = .ok personPlan ∧
      (Equivalence fun x y => foldedEquals x y = true) ∧
      Equivalence fun a b => personPlan.equals a b = true := by
  have hlink : personContract.link personCompanions = .ok personPlan := rfl
  have hfolded : Equivalence fun x y => foldedEquals x y = true := by
    refine ⟨fun x => ?_, fun h => ?_, fun h h' => ?_⟩ <;> unfold foldedEquals at *
    · exact beq_self_eq_true _
    · exact beq_iff_eq.2 (eq_of_beq h).symm
    · exact beq_iff_eq.2 ((eq_of_beq h).trans (eq_of_beq h'))
  exact ⟨hlink, hfolded, equals_equivalence hlink (personContract_everyCompanion hfolded)⟩

end Plan

end Equate
