import Equate.Contract.Basic
import Equate.Node.Equality
import Equate.Node.Hash
import Equate.Sequence.Basic
/-!
# Evaluation plans

A contract is linked with companion functions into a plan, which compares and hashes instances.
Besides its answer a plan gives the calls of companion functions that it made.
-/

namespace Equate

/-- A value of a contract type. A member that is not given reads as absent. -/
structure Instance where
  type : Bytes
  members : List (Bytes × Node)

/-- The value of a member; of values under one name the last counts. -/
def Instance.value (i : Instance) (member : Bytes) : Node :=
  match (i.members.filter fun m => m.1 == member).getLast? with
  | some m => m.2
  | none => .absent

/-- The companion functions at hand, by their names. -/
structure Companions where
  equals : Bytes → Option (Node → Node → Bool)
  hashes : Bytes → Option (Node → Int64)

/-- A call of a companion function. -/
structure CompanionCall where
  function : Bytes
  arguments : List Node

/-- A companion function that is missing, for a member of a type. -/
structure LinkError where
  function : Bytes
  member : Bytes
  type : Bytes
  deriving DecidableEq, Repr

/-- The message; it ends early at a NUL byte. -/
def LinkError.message (e : LinkError) : Bytes :=
  (utf8 "no callable bound for '" ++ e.function ++ utf8 "' (member '" ++ e.member ++
    utf8 "' of " ++ e.type ++ utf8 ")").untilNul

/-- What is done with one member. -/
inductive PlanStep where
  | include (member : Bytes)
  | custom (member : Bytes) (equals : Node → Node → Bool) (hash : Node → Int64)
  | sequence (member : Bytes) (orderMatters deep : Bool)

abbrev Plan := List PlanStep

/-! ## Linking -/

/-- The step for an entry of type `type`; an ignored member has none. -/
def ContractEntry.link (companions : Companions) (type : Bytes) (e : ContractEntry) :
    Except LinkError (Option PlanStep) :=
  let member := e.member.name
  match e.strategy with
  | .ignore => .ok none
  | .include _ => .ok (some (.include member))
  | .sequence _ orderMatters deep => .ok (some (.sequence member orderMatters deep))
  | .custom _ =>
    match companions.equals (equalsCompanion member), companions.hashes (hashCompanion member) with
    | none, _ => .error ⟨equalsCompanion member, member, type⟩
    | some _, none => .error ⟨hashCompanion member, member, type⟩
    | some equals, some hash => .ok (some (.custom member equals hash))

/-- The steps for entries, up to the first one that cannot be linked. -/
def linkEntries (companions : Companions) (type : Bytes) :
    List ContractEntry → Except LinkError Plan
  | [] => .ok []
  | e :: es =>
    match e.link companions type with
    | .error err => .error err
    | .ok step? =>
      match linkEntries companions type es with
      | .error err => .error err
      | .ok steps => .ok (step?.toList ++ steps)

/-- The plan of a contract. -/
def Contract.link (companions : Companions) (c : Contract) : Except LinkError Plan :=
  linkEntries companions c.qualifiedName c.entries

/-! ## Comparing -/

/-- How the elements of a sequence member are compared: by their contents when `deep`, else by
identity, hashed by their addresses. -/
def elementComparison (address : Node → UInt64) (deep : Bool) : Comparison Node :=
  if deep then ⟨Node.equal, Node.hash⟩ else ⟨Node.same, address⟩

/-- The elements of a value under a sequence strategy, or none if it is no collection. Nil is an
absent sequence. -/
def sequenceOf? (n : Node) : Option (Option (List Node)) :=
  if n.isNil then some none else n.elements?.map some

/-- Equality of two values under a sequence strategy. A node is one sequence object with itself;
unless both are sequences they compare by their contents. -/
def sequenceValuesEqual (orderMatters deep : Bool) (a b : Node) : Bool :=
  match sequenceOf? a, sequenceOf? b with
  | some s, some t =>
    Sequence.equalObjects (elementComparison Node.identityWord deep) orderMatters (a.same b) s t
  | _, _ => a.equal b

namespace PlanStep

/-- Compares the member of two instances, and the calls made for it. -/
def compare (a b : Instance) : PlanStep → Bool × List CompanionCall
  | .include member => ((a.value member).equal (b.value member), [])
  | .custom member equals _ =>
    (equals (a.value member) (b.value member),
      [⟨equalsCompanion member, [a.value member, b.value member]⟩])
  | .sequence member orderMatters deep =>
    (sequenceValuesEqual orderMatters deep (a.value member) (b.value member), [])

end PlanStep

namespace Plan

/-- Runs steps up to the first that tells the instances apart. -/
def compareSteps (a b : Instance) : Plan → Bool × List CompanionCall
  | [] => (true, [])
  | step :: steps =>
    let (same, calls) := step.compare a b
    if same then
      let (rest, more) := compareSteps a b steps
      (rest, calls ++ more)
    else (false, calls)

/-- Compares two instances, and the calls made. Instances of different types differ. -/
def compare (plan : Plan) (a b : Instance) : Bool × List CompanionCall :=
  if a.type = b.type then compareSteps a b plan else (false, [])

/-- Whether two instances are equal. -/
def equals (plan : Plan) (a b : Instance) : Bool := (plan.compare a b).1

end Plan

/-! ## Hashing -/

/-- The words that a value contributes under a sequence strategy. -/
def sequenceValueWords (address : Node → UInt64) (orderMatters deep : Bool) (n : Node) :
    List UInt64 :=
  match sequenceOf? n with
  | some s => Sequence.hashWords (elementComparison address deep) orderMatters s
  | none => [n.hash]

namespace PlanStep

/-- The words that the member of an instance contributes, and the calls made for it. -/
def digest (address : Node → UInt64) (i : Instance) : PlanStep → List UInt64 × List CompanionCall
  | .include member => ([(i.value member).hash], [])
  | .custom member _ hash =>
    ([(hash (i.value member)).toUInt64], [⟨hashCompanion member, [i.value member]⟩])
  | .sequence member orderMatters deep =>
    (sequenceValueWords address orderMatters deep (i.value member), [])

/-- The words that the member of an instance contributes. -/
def words (address : Node → UInt64) (i : Instance) (step : PlanStep) : List UInt64 :=
  (step.digest address i).1

end PlanStep

namespace Plan

/-- Runs steps one after another on a hash under construction. -/
def digestSteps (address : Node → UInt64) (i : Instance) (h : Hasher) :
    Plan → Hasher × List CompanionCall
  | [] => (h, [])
  | step :: steps =>
    let own := step.digest address i
    let rest := digestSteps address i (h.addAll own.1) steps
    (rest.1, own.2 ++ rest.2)

/-- Hashes an instance, and the calls made. `address` gives the words that stand for the identity of
nodes. -/
def digest (address : Node → UInt64) (plan : Plan) (i : Instance) :
    UInt64 × List CompanionCall :=
  let steps := digestSteps address i (.start (fnv1a i.type)) plan
  (steps.1.finish, steps.2)

/-- The hash of an instance. -/
def hash (address : Node → UInt64) (plan : Plan) (i : Instance) : UInt64 :=
  (plan.digest address i).1

theorem digestSteps_eq (address : Node → UInt64) (i : Instance) (h : Hasher) (plan : Plan) :
    digestSteps address i h plan =
      (h.addAll (plan.flatMap fun step => step.words address i),
        plan.flatMap fun step => (step.digest address i).2) := by
  induction plan generalizing h with
  | nil => rfl
  | cons step plan ih =>
    rw [digestSteps, List.flatMap_cons, List.flatMap_cons, ih]
    simp [PlanStep.words, Hasher.addAll]

/-- The words of the steps are folded in one after another, and their calls are made in order. -/
theorem digest_eq (address : Node → UInt64) (plan : Plan) (i : Instance) :
    plan.digest address i =
      (((Hasher.start (fnv1a i.type)).addAll
          (plan.flatMap fun step => step.words address i)).finish,
        plan.flatMap fun step => (step.digest address i).2) := by
  rw [digest, digestSteps_eq]

theorem hash_eq (address : Node → UInt64) (plan : Plan) (i : Instance) :
    plan.hash address i = ((Hasher.start (fnv1a i.type)).addAll
      (plan.flatMap fun step => step.words address i)).finish := by
  rw [hash, digest_eq]

end Plan

end Equate
