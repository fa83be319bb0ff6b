import Equate.Proofs.Declaration.Names
import Equate.Proofs.Emission.Evaluation
import Equate.Proofs.Plan.Equality
/-!
# Members that take no part have no influence

Of a value object those members take part that are not static, can carry a strategy and carry
exactly one that is not to ignore them; of a wrapper the wrapped value does. The classifier sets the
flags, the check filters by them, and the plan goes over what is left: the members it reads are the
ones that take part, and no others (`mem_plan_iff`). Each step reads one member, so instances that
agree on the members that take part cannot be told apart by the answers of a plan, its hashes or the
companion functions it calls.
-/

namespace Equate

/-- The members that take part in the equality of a class that gets a contract. -/
inductive ClassDeclaration.TakesPart (d : ClassDeclaration) : Bytes → Prop
  | wrapped {t : TypeForm} (hbase : d.base = .wrapper t) : TakesPart d "Value"
  | member {m : Member} {s : Strategy} {l : Location} (hbase : ∀ t, d.base ≠ .wrapper t)
    (hm : m ∈ d.members) (hstatic : m.isStatic = false) (heligible : m.eligible = true)
    (hstrategies : m.strategies = [⟨s, l⟩]) (hs : s ≠ .ignore) : TakesPart d m.name

/-! ## Instances -/

namespace Instance

/-- Whether two instances are of one type and have the same values for the members in `P`. -/
structure AgreeOn (P : Bytes → Prop) (a a' : Instance) : Prop where
  type : a.type = a'.type
  value : ∀ name, P name → a.value name = a'.value name

/-- Gives a member a value, whether or not it had one. -/
def put (i : Instance) (name : Bytes) (v : Node) : Instance :=
  { i with members := i.members ++ [(name, v)] }

@[simp] theorem type_put (i : Instance) (name : Bytes) (v : Node) : (i.put name v).type = i.type :=
  rfl

theorem value_put (i : Instance) (name : Bytes) (v : Node) (other : Bytes) :
    (i.put name v).value other = if name = other then v else i.value other := by
  unfold value put
  by_cases h : name = other <;> simp [h]

namespace AgreeOn

variable {P : Bytes → Prop} {a : Instance}

theorem refl (P : Bytes → Prop) (a : Instance) : a.AgreeOn P a := ⟨rfl, fun _ _ => rfl⟩

/-- A member outside of `P` can be given any value. -/
theorem put {name : Bytes} (h : ¬ P name) (v : Node) : (a.put name v).AgreeOn P a := by
  refine ⟨rfl, fun other hother => ?_⟩
  rw [value_put, if_neg]
  rintro rfl
  exact h hother

end AgreeOn

end Instance

/-! ## What plans read -/

namespace PlanStep

variable {a a' b b' : Instance} {step : PlanStep}

theorem compare_congr (ha : a.value step.member = a'.value step.member)
    (hb : b.value step.member = b'.value step.member) : step.compare a b = step.compare a' b' := by
  cases step <;> simp only [member] at ha hb <;> simp only [compare, ha, hb]

theorem digest_congr (address : Node → UInt64) (ha : a.value step.member = a'.value step.member) :
    step.digest address a = step.digest address a' := by
  cases step <;> simp only [member] at ha <;> simp only [digest, ha]

end PlanStep

namespace Plan

variable {P : Bytes → Prop} {a a' b b' : Instance} {plan : Plan}

theorem compareSteps_congr (hplan : ∀ step ∈ plan, P step.member) (ha : a.AgreeOn P a')
    (hb : b.AgreeOn P b') : compareSteps a b plan = compareSteps a' b' plan := by
  induction plan with
  | nil => rfl
  | cons step plan ih =>
    rw [List.forall_mem_cons] at hplan
    have hstep : step.compare a b = step.compare a' b' :=
      PlanStep.compare_congr (ha.value _ hplan.1) (hb.value _ hplan.1)
    rw [compareSteps, compareSteps, hstep, ih hplan.2]

theorem compare_eq_of_agreeOn (hplan : ∀ step ∈ plan, P step.member) (ha : a.AgreeOn P a')
    (hb : b.AgreeOn P b') : plan.compare a b = plan.compare a' b' := by
  unfold compare
  rw [ha.type, hb.type, compareSteps_congr hplan ha hb]

theorem digestSteps_congr (hplan : ∀ step ∈ plan, P step.member) (address : Node → UInt64)
    (ha : a.AgreeOn P a') (h : Hasher) :
    digestSteps address a h plan = digestSteps address a' h plan := by
  induction plan generalizing h with
  | nil => rfl
  | cons step plan ih =>
    rw [List.forall_mem_cons] at hplan
    rw [digestSteps, digestSteps, PlanStep.digest_congr address (ha.value _ hplan.1), ih hplan.2]

theorem digest_eq_of_agreeOn (hplan : ∀ step ∈ plan, P step.member) (address : Node → UInt64)
    (ha : a.AgreeOn P a') : plan.digest address a = plan.digest address a' := by
  unfold digest
  rw [ha.type, digestSteps_congr hplan address ha]

end Plan

/-! ## Which members take part -/

namespace ClassDeclaration

variable {fixHints : Bool} {d : ClassDeclaration} {c : Contract} {companions : Companions}
  {plan : Plan} {name : Bytes}

theorem mem_memberNames_iff (hcheck : (d.check fixHints).contract? = some c) :
    name ∈ c.memberNames ↔ d.TakesPart name := by
  unfold Contract.memberNames
  -- the contract has the wrapped value for its only entry, or one entry for each strategy kept
  rcases requestedContract?_cases (contract?_check_eq_some_iff.1 hcheck).2 with
    ⟨wrapped, hbase, -, hentries⟩ | ⟨-, hbase, -, hentries⟩
  · rw [hentries, List.map_singleton, List.mem_singleton]
    constructor
    · rintro rfl
      exact .wrapped hbase
    · rintro (_ | ⟨hno⟩)
      · rfl
      · exact absurd hbase (hno _)
  · have hno : ∀ t, d.base ≠ .wrapper t := fun t ht => nomatch hbase.symm.trans ht
    rw [hentries, List.mem_map]
    constructor
    · rintro ⟨e, he, rfl⟩
      obtain ⟨hm, hs⟩ := mem_entries_iff.1 he
      obtain ⟨hcarrier, ⟨l, hl⟩, hignore⟩ := Member.strategy?_eq_some_iff.1 hs
      obtain ⟨hstatic, heligible⟩ := Member.isCarrier_iff.1 hcarrier
      exact .member hno hm hstatic heligible hl (Strategy.isIgnore_eq_false_iff.1 hignore)
    · rintro (h | ⟨-, hm, hstatic, heligible, hl, hs⟩)
      · exact absurd h (hno _)
      · have hcarrier := Member.isCarrier_iff.2 ⟨hstatic, heligible⟩
        have hignore := Strategy.isIgnore_eq_false_iff.2 hs
        have hstrategy := Member.strategy?_eq_some_iff.2 ⟨hcarrier, ⟨_, hl⟩, hignore⟩
        exact ⟨⟨_, _⟩, mem_entries_iff.2 ⟨hm, hstrategy⟩, rfl⟩

/-- A plan has a step for each member that takes part, and for no other. -/
theorem mem_plan_iff (hcheck : (d.check fixHints).contract? = some c)
    (hlink : c.link companions = .ok plan) :
    name ∈ plan.map PlanStep.member ↔ d.TakesPart name := by
  rw [Contract.map_member_plan (entries_of_check hcheck).1 hlink, mem_memberNames_iff hcheck]

/-- A member that is static, a method or computed does not take part, nor does one that carries any
number of strategies but one, or one that is ignored. Another member cannot stand in for it, as no
two have one name. -/
theorem not_takesPart_of_mem (hnames : (d.members.map Member.name).Nodup)
    (hbase : ∀ t, d.base ≠ .wrapper t) {m : Member} (hm : m ∈ d.members)
    (h : m.isStatic = true ∨ m.kind = .method ∨ m.computed = true ∨
      ∀ s l, m.strategies = [⟨s, l⟩] → s = .ignore) : ¬ d.TakesPart m.name := by
  intro htakes
  generalize hname : m.name = name at htakes
  rcases htakes with ht | ⟨-, hm', hstatic, heligible, hl, hs⟩
  · exact absurd ht (hbase _)
  · obtain rfl := List.inj_on_of_nodup_map hnames hm hm' hname
    rcases h with h | h | h | h
    · rw [h] at hstatic
      cases hstatic
    · rw [Member.eligible_eq_false_iff.2 (.inl h)] at heligible
      cases heligible
    · rw [Member.eligible_eq_false_iff.2 (.inr h)] at heligible
      cases heligible
    · exact hs (h _ _ hl)

theorem not_takesPart_of_not_declared (hbase : ∀ t, d.base ≠ .wrapper t)
    (h : ∀ m ∈ d.members, m.name ≠ name) : ¬ d.TakesPart name := by
  rintro (ht | ⟨-, hm, -⟩)
  · exact absurd ht (hbase _)
  · exact h _ hm rfl

/-- Instances that agree on the members that take part are compared and hashed alike, with the same
calls of companion functions. So whatever else an instance is given changes nothing: values for
members that are ignored, not annotated, static, computed or methods, and for names that the class
does not declare. -/
theorem participants_decide {rep : Reporter} {form : Node}
    (hread : (Declaration.read rep form).declaration? = some (.classDeclaration d))
    (hcheck : (d.check fixHints).contract? = some c) (hlink : c.link companions = .ok plan) :
    (∀ a a' b b' : Instance, a.AgreeOn d.TakesPart a' → b.AgreeOn d.TakesPart b' →
      plan.compare a b = plan.compare a' b' ∧
      ∀ address, plan.hash address a = plan.hash address a' ∧
        (plan.digest address a).2 = (plan.digest address a').2) ∧
    (∀ name, ¬ d.TakesPart name → ∀ (a b : Instance) v,
      plan.compare (a.put name v) b = plan.compare a b ∧
      plan.compare a (b.put name v) = plan.compare a b ∧
      ∀ address, plan.hash address (a.put name v) = plan.hash address a ∧
        (plan.digest address (a.put name v)).2 = (plan.digest address a).2) ∧
    ((∀ t, d.base ≠ .wrapper t) →
      (∀ m ∈ d.members, (m.isStatic = true ∨ m.kind = .method ∨ m.computed = true ∨
        ∀ s l, m.strategies = [⟨s, l⟩] → s = .ignore) → ¬ d.TakesPart m.name) ∧
      ∀ name, (∀ m ∈ d.members, m.name ≠ name) → ¬ d.TakesPart name) := by
  have hplan : ∀ step ∈ plan, d.TakesPart step.member := fun step hstep =>
    (mem_plan_iff hcheck hlink).1 (List.mem_map_of_mem hstep)
  have hdigest {a a' : Instance} (ha : a.AgreeOn d.TakesPart a') (address : Node → UInt64) :
      plan.hash address a = plan.hash address a' ∧
        (plan.digest address a).2 = (plan.digest address a').2 :=
    Prod.ext_iff.1 (Plan.digest_eq_of_agreeOn hplan address ha)
  refine ⟨fun a a' b b' ha hb => ⟨?_, fun address => ?_⟩, fun name hname a b v => ?_,
    fun hbase => ⟨fun m hm h => ?_, fun name h => ?_⟩⟩
  · exact Plan.compare_eq_of_agreeOn hplan ha hb
  · exact hdigest ha address
  · have ha : (a.put name v).AgreeOn d.TakesPart a := .put hname v
    have hb : (b.put name v).AgreeOn d.TakesPart b := .put hname v
    exact ⟨Plan.compare_eq_of_agreeOn hplan ha (.refl _ b),
      Plan.compare_eq_of_agreeOn hplan (.refl _ a) hb,
      hdigest ha⟩
  · have hnames := nodup_name_of_read (Declaration.read_eq_class hread)
    exact not_takesPart_of_mem hnames hbase hm h
  · exact not_takesPart_of_not_declared hbase h

/-- A class with members of all kinds, of which `owner`, `id` and `tags` take part. -/
def shelf : Node :=
  let mark : Mark := ⟨0, none⟩
  let symbol (s : Bytes) : Node := .symbol mark s
  let clause (key : Bytes) (value : Node) : List Node := [.keyword mark key, value]
  let strategy (head : Bytes) (options : List Node) : List Node :=
    clause "equality" (.list mark (symbol head :: options))
  let member (kind name : Bytes) (clauses : List Node) : Node :=
    .list mark (symbol kind :: clause "name" (symbol name) ++ clauses)
  let i32 : List Node := clause "type" (symbol "i32")
  .list mark (symbol "class" :: clause "name" (symbol "Shelf") ++
    clause "partial" (.bool mark true) ++ clause "base" (symbol "value-object") ++
    clause "attrs" (.vector mark [symbol "value-object"]) ++
    clause "members" (.vector mark [
      member "field" "id" (i32 ++ strategy "include" []),
      member "property" "note" (i32 ++ strategy "ignore" []),
      member "property" "tags" (clause "type" (.list mark [symbol "set", symbol "i32"]) ++
        strategy "sequence" (clause "order-matters" (.bool mark false))),
      member "field" "seen" i32,
      member "field" "count" (i32 ++ clause "static" (.bool mark true) ++ strategy "include" []),
      member "property" "total" (i32 ++ clause "computed" (.bool mark true)),
      member "method" "close" [],
      member "property" "owner" (i32 ++ strategy "custom" (clause "order" (.int mark (-1))))]) ++
    clause "functions" (.vector mark [member "fn" "Equals_Owner" [],
      member "fn" "GetHashCode_Owner" []]))

def shelfClass : ClassDeclaration :=
  match (Declaration.read {} shelf).declaration? with
  | some (.classDeclaration d) => d
  | _ => { name := [] }

def shelfContract : Contract := (shelfClass.check true).contract?.getD { typeName := [] }

def shelfPlan : Plan :=
  [.custom "owner" Node.equal fun n => n.hash.toInt64, .include "id", .sequence "tags" false true]

/-- An instance whose other members have values as well, one of them under a name that the class
does not declare. -/
def shelfOf (other : Node) : Instance where
  type := "Shelf"
  members := [
    ("id", .int ⟨0, none⟩ 7), ("note", other), ("seen", other), ("count", other), ("total", other),
    ("close", other), ("colour", other), ("owner", .symbol ⟨1, none⟩ "Ada")]

theorem participants_decide_shelf :
    (Declaration.read {} shelf).declaration? = some (.classDeclaration shelfClass) ∧
      (shelfClass.check true).contract? = some shelfContract ∧
      shelfContract.link plainCompanions = .ok shelfPlan ∧
      shelfPlan.map PlanStep.member = [utf8 "owner", utf8 "id", utf8 "tags"] ∧
      (∀ v w, (shelfOf v).AgreeOn shelfClass.TakesPart (shelfOf w)) ∧
      (∀ v w, shelfPlan.equals (shelfOf v) (shelfOf w) = true ∧
        ∀ address, (shelfPlan.digest address (shelfOf v)).2 =
          (shelfPlan.digest address (shelfOf w)).2) ∧
      ∀ v, shelfPlan.equals ((shelfOf .absent).put "note" v) (shelfOf .absent) = true := by
  have hread : (Declaration.read {} shelf).declaration? = some (.classDeclaration shelfClass) := by
    decide +kernel
  have hcheck : (shelfClass.check true).contract? = some shelfContract := by decide +kernel
  have hlink : shelfContract.link plainCompanions = .ok shelfPlan := by
    have hentries : shelfContract.entries.map (fun e => (e.member.name, e.strategy)) =
        [(utf8 "owner", .custom (some (-1))), (utf8 "id", .include none),
          (utf8 "tags", .sequence none false true)] := by
      decide +kernel
    simp only [List.map_eq_cons_iff, List.map_eq_nil_iff, Prod.mk.injEq] at hentries
    obtain ⟨owner, _, hentries, ⟨howner, hcustom⟩, key, _, rfl, ⟨hkey, hinclude⟩, tags, _, rfl,
      ⟨htags, hsequence⟩, rfl⟩ := hentries
    unfold Contract.link
    simp only [hentries, linkEntries, ContractEntry.link, howner, hcustom, hkey, hinclude, htags,
      hsequence]
    rfl
  have hmembers : shelfPlan.map PlanStep.member = [utf8 "owner", utf8 "id", utf8 "tags"] := rfl
  have hbase : ∀ t, shelfClass.base ≠ .wrapper t := by
    have hbase : shelfClass.base = .valueObject := by decide +kernel
    intro t ht
    rw [hbase] at ht
    cases ht
  have hagree : ∀ v w, (shelfOf v).AgreeOn shelfClass.TakesPart (shelfOf w) := by
    intro v w
    refine ⟨rfl, fun name hname => ?_⟩
    rw [← mem_plan_iff hcheck hlink, hmembers] at hname
    simp only [List.mem_cons, List.not_mem_nil, or_false] at hname
    rcases hname with rfl | rfl | rfl <;> rfl
  obtain ⟨hagreeing, hput, hout⟩ := participants_decide hread hcheck hlink
  have hsame : shelfPlan.equals (shelfOf .absent) (shelfOf .absent) = true := by decide +kernel
  refine ⟨hread, hcheck, hlink, hmembers, hagree, fun v w => ?_, fun v => ?_⟩
  · have hcompare := (hagreeing _ _ _ _ (hagree v .absent) (hagree w .absent)).1
    have hdigest := (hagreeing _ _ _ _ (hagree v w) (.refl _ (shelfOf .absent))).2
    refine ⟨?_, fun address => (hdigest address).2⟩
    unfold Plan.equals
    rw [hcompare]
    exact hsame
  · obtain ⟨note, hnote, hname, hignored⟩ : ∃ m ∈ shelfClass.members, m.name = utf8 "note" ∧
        m.strategies.map PlacedStrategy.strategy = [.ignore] := by
      decide +kernel
    have hnoteOut : ¬ shelfClass.TakesPart "note" := by
      have hout := (hout hbase).1 note hnote (.inr (.inr (.inr fun s l hl => ?_)))
      · rwa [hname] at hout
      · rw [hl] at hignored
        exact (List.singleton_inj.1 hignored)
    unfold Plan.equals
    rw [(hput "note" hnoteOut _ _ v).1]
    exact hsame

end ClassDeclaration

end Equate
