import Equate.Proofs.Plan.Linking
/-!
# Which companion functions are called

A plan compares instances entry by entry and stops behind the first entry that tells them apart, so
it calls the functions of the custom entries up to there and no others (`compareSteps_eq`). To hash
an instance it calls those of all custom entries. What it answers depends on nothing else of the
companions: functions that answer these calls alike give the same verdict and the same hash.
-/

namespace Equate

/-! ## Lists up to a failure -/

section

variable {α : Type} {p q : α → Bool} {x : α} {xs : List α}

/-- The elements up to the first for which `p` fails, with that one. -/
def upToFailure (p : α → Bool) (xs : List α) : List α := xs.take ((xs.takeWhile p).length + 1)

theorem upToFailure_cons_of_pos (h : p x = true) :
    upToFailure p (x :: xs) = x :: upToFailure p xs := by
  rw [upToFailure, List.takeWhile_cons_of_pos h, List.length_cons, List.take_succ_cons, upToFailure]

theorem upToFailure_cons_of_neg (h : p x = false) : upToFailure p (x :: xs) = [x] := by
  rw [upToFailure, List.takeWhile_cons_of_neg (by simp [h]), List.length_nil, List.take_succ_cons,
    List.take_zero]

/-- What lies behind the first failure does not matter. -/
theorem upToFailure_congr (h : ∀ x ∈ upToFailure p xs, q x = p x) :
    upToFailure q xs = upToFailure p xs ∧ xs.all q = xs.all p := by
  induction xs with
  | nil => exact ⟨rfl, rfl⟩
  | cons x xs ih =>
    cases hx : p x with
    | true =>
      rw [upToFailure_cons_of_pos hx, List.forall_mem_cons] at h
      obtain ⟨hq, h⟩ := h
      obtain ⟨htaken, hall⟩ := ih h
      rw [upToFailure_cons_of_pos hx, upToFailure_cons_of_pos (hq.trans hx), htaken, List.all_cons,
        List.all_cons, hq, hall]
      exact ⟨rfl, rfl⟩
    | false =>
      rw [upToFailure_cons_of_neg hx, List.forall_mem_singleton] at h
      rw [upToFailure_cons_of_neg hx, upToFailure_cons_of_neg (h.trans hx), List.all_cons,
        List.all_cons, h, hx]
      exact ⟨rfl, rfl⟩

end

/-! ## Calls and answers -/

namespace Companions

/-- The answer to a call of a function that compares, if one is bound under its name. -/
def equalsAnswer? (companions : Companions) (call : CompanionCall) : Option Bool :=
  match call.arguments with
  | [x, y] => (companions.equals call.function).map fun equals => equals x y
  | _ => none

/-- The answer to a call of a function that hashes, if one is bound under its name. -/
def hashAnswer? (companions : Companions) (call : CompanionCall) : Option Int64 :=
  match call.arguments with
  | [x] => (companions.hashes call.function).map fun hash => hash x
  | _ => none

end Companions

/-- The names of functions that compare and that hash have nothing in common. -/
theorem equalsCompanion_ne_hashCompanion (m n : Bytes) : equalsCompanion m ≠ hashCompanion n := by
  intro h
  have hequals : (utf8 "Equals_").head? = some 0x45 := by decide
  have hhash : (utf8 "GetHashCode_").head? = some 0x47 := by decide
  have hhead := congrArg List.head? h
  rw [equalsCompanion, hashCompanion, List.head?_append, List.head?_append, hequals, hhash] at hhead
  cases hhead

namespace ContractEntry

/-- The call that compares the values of an entry. -/
def equalsCall (a b : Instance) (e : ContractEntry) : CompanionCall :=
  ⟨equalsCompanion e.member.name, [a.value e.member.name, b.value e.member.name]⟩

/-- The call that hashes the value of an entry. -/
def hashCall (i : Instance) (e : ContractEntry) : CompanionCall :=
  ⟨hashCompanion e.member.name, [i.value e.member.name]⟩

/-- Whether an entry finds its values equal in two instances. -/
def agrees (companions : Companions) (a b : Instance) (e : ContractEntry) : Bool :=
  let x := a.value e.member.name
  let y := b.value e.member.name
  match e.strategy with
  | .ignore => true
  | .include _ => x.equal y
  | .sequence _ orderMatters deep => sequenceValuesEqual orderMatters deep x y
  | .custom _ => companions.equalsAnswer? (e.equalsCall a b) == some true

/-- The words that an entry contributes to the hash of an instance. -/
def words (companions : Companions) (address : Node → UInt64) (i : Instance) (e : ContractEntry) :
    List UInt64 :=
  let v := i.value e.member.name
  match e.strategy with
  | .ignore => []
  | .include _ => [v.hash]
  | .sequence _ orderMatters deep => sequenceValueWords address orderMatters deep v
  | .custom _ => ((companions.hashAnswer? (e.hashCall i)).map Int64.toUInt64).toList

variable {companions companions' : Companions} {a b i : Instance} {e : ContractEntry}
  {step : PlanStep}

theorem agrees_congr (h : e.strategy.isCustom = true →
      companions'.equalsAnswer? (e.equalsCall a b) = companions.equalsAnswer? (e.equalsCall a b)) :
    e.agrees companions' a b = e.agrees companions a b := by
  unfold agrees
  cases hs : e.strategy with
  | custom order? => rw [h (by rw [hs]; rfl)]
  | _ => rfl

theorem words_congr (h : e.strategy.isCustom = true →
      companions'.hashAnswer? (e.hashCall i) = companions.hashAnswer? (e.hashCall i))
    (address : Node → UInt64) : e.words companions' address i = e.words companions address i := by
  unfold words
  cases hs : e.strategy with
  | custom order? => rw [h (by rw [hs]; rfl)]
  | _ => rfl

theorem LinksTo.compare_eq (h : e.LinksTo companions step) (a b : Instance) :
    step.compare a b =
      (e.agrees companions a b, if e.strategy.isCustom then [e.equalsCall a b] else []) := by
  unfold agrees
  cases h with
  | «include» h | sequence h => rw [h]; rfl
  | custom h hequals hhash =>
    rw [h]
    simp [PlanStep.compare, Strategy.isCustom, equalsCall, Companions.equalsAnswer?, hequals]

theorem LinksTo.digest_eq (h : e.LinksTo companions step) (address : Node → UInt64)
    (i : Instance) :
    step.digest address i =
      (e.words companions address i, if e.strategy.isCustom then [e.hashCall i] else []) := by
  unfold words
  cases h with
  | «include» h | sequence h => rw [h]; rfl
  | custom h hequals hhash =>
    rw [h]
    simp [PlanStep.digest, Strategy.isCustom, hashCall, Companions.hashAnswer?, hhash]

end ContractEntry

/-! ## Runs -/

open ContractEntry

variable {companions companions' : Companions} {es : List ContractEntry} {c : Contract}
  {plan plan' : Plan} {a b i : Instance}

/-- A comparison asks the entries up to the first that fails, and makes their calls in order. -/
theorem compareSteps_eq (h : List.Forall₂ (LinksTo companions) es plan) (a b : Instance) :
    plan.compareSteps a b =
      (es.all (agrees companions a b),
        ((upToFailure (agrees companions a b) es).filter fun e => e.strategy.isCustom).map
          (equalsCall a b)) := by
  induction h with
  | nil => rfl
  | @cons e step es plan hstep _ ih =>
    -- An entry that fails ends the comparison, and its own call has been made by then.
    rw [Plan.compareSteps, hstep.compare_eq, ih]
    cases hagrees : e.agrees companions a b with
    | true =>
      rw [upToFailure_cons_of_pos hagrees, List.all_cons, hagrees, List.filter_cons]
      cases e.strategy.isCustom <;> rfl
    | false =>
      rw [upToFailure_cons_of_neg hagrees, List.all_cons, hagrees, List.filter_cons]
      cases e.strategy.isCustom <;> rfl

theorem flatMap_words_eq (h : List.Forall₂ (LinksTo companions) es plan)
    (address : Node → UInt64) (i : Instance) :
    (plan.flatMap fun step => step.words address i) = es.flatMap (words companions address i) := by
  induction h with
  | nil => rfl
  | cons hstep _ ih =>
    rw [List.flatMap_cons, List.flatMap_cons, PlanStep.words, hstep.digest_eq, ih]

theorem flatMap_calls_eq (h : List.Forall₂ (LinksTo companions) es plan)
    (address : Node → UInt64) (i : Instance) :
    (plan.flatMap fun step => (step.digest address i).2) =
      (es.filter fun e => e.strategy.isCustom).map (hashCall i) := by
  induction h with
  | nil => rfl
  | @cons e step es plan hstep _ ih =>
    rw [List.flatMap_cons, hstep.digest_eq, ih, List.filter_cons]
    cases e.strategy.isCustom <;> rfl

/-- A hash folds in the words of all entries, and makes their calls in order. -/
theorem digest_eq (h : List.Forall₂ (LinksTo companions) es plan) (address : Node → UInt64)
    (i : Instance) :
    plan.digest address i =
      (((Hasher.start (fnv1a i.type)).addAll (es.flatMap (words companions address i))).finish,
        (es.filter fun e => e.strategy.isCustom).map (hashCall i)) := by
  rw [Plan.digest_eq, flatMap_words_eq h, flatMap_calls_eq h]

/-- Functions that answer the calls of a comparison alike lead to the same comparison. -/
theorem compareSteps_congr (h : List.Forall₂ (LinksTo companions) es plan)
    (h' : List.Forall₂ (LinksTo companions') es plan')
    (halike : ∀ call ∈ (plan.compareSteps a b).2,
      companions'.equalsAnswer? call = companions.equalsAnswer? call) :
    plan'.compareSteps a b = plan.compareSteps a b := by
  rw [compareSteps_eq h] at halike
  -- Entries behind the first failure may be told apart by the other functions, but are not asked.
  have hagrees : ∀ e ∈ upToFailure (agrees companions a b) es,
      e.agrees companions' a b = e.agrees companions a b := fun e he =>
    agrees_congr fun hcustom =>
      halike _ (List.mem_map_of_mem (List.mem_filter.2 ⟨he, hcustom⟩))
  obtain ⟨hasked, hall⟩ := upToFailure_congr hagrees
  rw [compareSteps_eq h, compareSteps_eq h', hasked, hall]

/-- Functions that answer the calls of a hash alike lead to the same hash. -/
theorem digest_congr (h : List.Forall₂ (LinksTo companions) es plan)
    (h' : List.Forall₂ (LinksTo companions') es plan') {address : Node → UInt64}
    (halike : ∀ call ∈ (plan.digest address i).2,
      companions'.hashAnswer? call = companions.hashAnswer? call) :
    plan'.digest address i = plan.digest address i := by
  rw [digest_eq h] at halike
  have hwords : es.flatMap (words companions' address i) =
      es.flatMap (words companions address i) :=
    List.flatMap_congr fun e he => words_congr (fun hcustom =>
      halike _ (List.mem_map_of_mem (List.mem_filter.2 ⟨he, hcustom⟩))) address
  rw [digest_eq h, digest_eq h', hwords]

/-- A comparison calls the comparing functions of the custom entries up to the first entry that
fails, that one with them. A hash folds in the words of all entries, and calls the hashing functions
of the custom ones for theirs, in order. The verdict and the hash depend on the companions by the
answers to these calls alone. -/
theorem calls_of_link (hlink : c.link companions = .ok plan) (a b : Instance) :
    (a.type ≠ b.type → plan.compare a b = (false, [])) ∧
    (a.type = b.type →
      let k := (c.evaluated.takeWhile (agrees companions a b)).length
      (plan.compare a b).2 =
        ((c.evaluated.take (k + 1)).filter fun e => e.strategy.isCustom).map (equalsCall a b) ∧
      (plan.equals a b = true ↔ ∀ e ∈ c.evaluated, e.agrees companions a b = true)) ∧
    (∀ address,
      plan.hash address a = ((Hasher.start (fnv1a a.type)).addAll
        (c.evaluated.flatMap (words companions address a))).finish ∧
      plan.digest address a = (plan.hash address a,
        (c.evaluated.filter fun e => e.strategy.isCustom).map (hashCall a))) ∧
    (∀ name, (∀ call ∈ (plan.compare a b).2, call.function ≠ hashCompanion name) ∧
      ∀ address, ∀ call ∈ (plan.digest address a).2, call.function ≠ equalsCompanion name) ∧
    ∀ companions' plan', c.link companions' = .ok plan' →
      ((∀ call ∈ (plan.compare a b).2,
          companions'.equalsAnswer? call = companions.equalsAnswer? call) →
        plan'.compare a b = plan.compare a b) ∧
      ∀ address, (∀ call ∈ (plan.digest address a).2,
          companions'.hashAnswer? call = companions.hashAnswer? call) →
        plan'.digest address a = plan.digest address a := by
  have hlinked := linkEntries_eq_ok_iff.1 hlink
  have hsame (h : a.type = b.type) (plan : Plan) : plan.compare a b = plan.compareSteps a b :=
    if_pos h
  have hdiffer (h : a.type ≠ b.type) (plan : Plan) : plan.compare a b = (false, []) := if_neg h
  refine ⟨fun h => hdiffer h plan, fun h => ?_, fun address => ?_,
    fun name => ⟨?_, fun address => ?_⟩,
    fun companions' plan' hlink' => ⟨fun halike => ?_, fun address halike => ?_⟩⟩
  · rw [Plan.equals, hsame h, compareSteps_eq hlinked]
    exact ⟨rfl, List.all_eq_true⟩
  · rw [Plan.hash, digest_eq hlinked]
    exact ⟨rfl, rfl⟩
  · by_cases h : a.type = b.type
    · rw [hsame h, compareSteps_eq hlinked]
      intro call hcall
      obtain ⟨e, -, rfl⟩ := List.mem_map.1 hcall
      exact equalsCompanion_ne_hashCompanion e.member.name name
    · rw [hdiffer h]
      exact List.forall_mem_nil _
  · rw [digest_eq hlinked]
    intro call hcall
    obtain ⟨e, -, rfl⟩ := List.mem_map.1 hcall
    exact (equalsCompanion_ne_hashCompanion name e.member.name).symm
  · by_cases h : a.type = b.type
    · rw [hsame h] at halike ⊢
      rw [hsame h]
      exact compareSteps_congr hlinked (linkEntries_eq_ok_iff.1 hlink') halike
    · rw [hdiffer h, hdiffer h]
  · exact digest_congr hlinked (linkEntries_eq_ok_iff.1 hlink') halike

/-- A parcel is weighed, and labels are compared before stops and people. The note is ignored. -/
def parcelContract : Contract where
  typeName := "Parcel"
  entries := [⟨{ name := "weight", kind := .property }, .include none⟩,
    ⟨{ name := "m_label", kind := .field }, .custom none⟩,
    ⟨{ name := "note", kind := .property }, .ignore⟩,
    ⟨{ name := "stops", kind := .property }, .sequence none true true⟩,
    ⟨{ name := "sender", kind := .property }, .custom none⟩,
    ⟨{ name := "_receiver", kind := .field }, .custom (some 7)⟩]

/-- All labels count as equal. -/
def parcelCompanions : Companions where
  equals name := some fun x y => name == utf8 "Equals_Label" || x.equal y
  hashes _ := some fun _ => 0

def parcelPlan : Plan :=
  [.include "weight", .custom "m_label" (fun _ _ => true) fun _ => 0, .sequence "stops" true true,
    .custom "sender" Node.equal fun _ => 0, .custom "_receiver" Node.equal fun _ => 0]

def parcel (label note sender : Bytes) : Instance where
  type := "Parcel"
  members := [("m_label", .str ⟨0, none⟩ label), ("note", .str ⟨0, none⟩ note),
    ("sender", .str ⟨0, none⟩ sender)]

/-- Parcels of two senders: the receivers are never asked for, but hashed. -/
theorem calls_of_parcel :
    let a := parcel "a" "fragile" "Ann"
    let b := parcel "b" "" "Bob"
    let value (text : Bytes) : Node := .str ⟨0, none⟩ text
    parcelContract.link parcelCompanions = .ok parcelPlan ∧ a.type = b.type ∧
      parcelPlan.compare a b = (false,
        [⟨"Equals_Label", [value "a", value "b"]⟩, ⟨"Equals_Sender", [value "Ann", value "Bob"]⟩]) ∧
      (∀ address,
        parcelPlan.hash address a = ((Hasher.start (fnv1a "Parcel")).addAll
          ([Node.absent.hash, 0] ++ sequenceValueWords address true true .absent ++
            [0, 0])).finish ∧
        parcelPlan.digest address a = (parcelPlan.hash address a,
          [⟨"GetHashCode_Label", [value "a"]⟩, ⟨"GetHashCode_Sender", [value "Ann"]⟩,
            ⟨"GetHashCode_Receiver", [.absent]⟩])) ∧
      parcelPlan.compare a { b with type := "Letter" } = (false, []) := by
  intro a b value
  have hlink : parcelContract.link parcelCompanions = .ok parcelPlan := rfl
  obtain ⟨-, hsame, hhash, -⟩ := calls_of_link hlink a b
  obtain ⟨hdiffer, -⟩ := calls_of_link hlink a { b with type := "Letter" }
  obtain ⟨hcalls, hverdict⟩ := hsame rfl
  have hsenders : ∃ e ∈ parcelContract.evaluated, e.agrees parcelCompanions a b = false := by
    decide
  refine ⟨hlink, rfl, Prod.ext ?_ (hcalls.trans rfl), hhash, hdiffer (by decide)⟩
  obtain ⟨sender, hsender, hdisagree⟩ := hsenders
  refine Bool.eq_false_iff.2 fun h => ?_
  cases hdisagree.symm.trans (hverdict.1 h sender hsender)

end Equate
