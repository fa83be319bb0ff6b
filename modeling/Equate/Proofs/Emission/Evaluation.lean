import Equate.Proofs.Emission.Section
import Equate.Proofs.Plan.Linking
/-!
# Generated code evaluates what plans evaluate

The comment of a section, the statements of its two functions and the steps of a plan come from the
entries of one contract, each in its own walk. For a contract that a check gives they go over the
same members in the same order, and treat each alike (`EvaluatedAlike`): no entry is ignored, so the
plan leaves none out, and the entries are in the order of their places, so the groups of the comment
do not shuffle them.
-/

namespace Equate

open Emission

def PlanStep.member : PlanStep → Bytes
  | .include m | .custom m _ _ | .sequence m _ _ => m

/-- Whether two statements in the code of a type and a step of a plan treat the member of an entry
alike. Functions that are called by the code under a name are those that the plan calls. -/
inductive EvaluatedAlike (companions : Companions) (type : Bytes) (e : ContractEntry) :
    EqualsStatement → HashStatement → PlanStep → Prop where
  | sequence {order? : Option Int} {orderMatters deep : Bool}
      (h : e.strategy = .sequence order? orderMatters deep) :
      EvaluatedAlike companions type e (.sequence e.member.name orderMatters deep)
        (.sequence e.member.name orderMatters deep) (.sequence e.member.name orderMatters deep)
  | custom {order? : Option Int} {f g : Bytes} {equals : Node → Node → Bool} {hash : Node → Int64}
      (h : e.strategy = .custom order?) (hequals : companions.equals f = some equals)
      (hhash : companions.hashes g = some hash) :
      EvaluatedAlike companions type e (.companion type f e.member.name)
        (.companion type g e.member.name) (.custom e.member.name equals hash)
  | value {order? : Option Int} (h : e.strategy = .include order?)
      (hvalue : e.member.type.isSequence = false) :
      EvaluatedAlike companions type e (.operator e.member.name) (.value e.member.name)
        (.include e.member.name)
  | container {order? : Option Int} (h : e.strategy = .include order?)
      (hcontainer : e.member.type.isSequence = true) :
      EvaluatedAlike companions type e (.operator e.member.name)
        (.sequence e.member.name true true) (.include e.member.name)

/-! ## Entries -/

namespace ContractEntry

variable {companions : Companions} {type : Bytes} {e : ContractEntry} {step : PlanStep}

theorem member_equalsStatement (type : Bytes) (e : ContractEntry) :
    (e.equalsStatement type).member = e.member.name := by
  unfold equalsStatement
  cases e.strategy <;> rfl

theorem member_hashStatement (type : Bytes) (e : ContractEntry) :
    (e.hashStatement type).member = e.member.name := by
  unfold hashStatement
  cases e.strategy with
  | sequence | custom => rfl
  | _ =>
    dsimp only
    split <;> rfl

/-- The step that an entry is linked to goes with its statements. -/
theorem LinksTo.evaluatedAlike (h : e.LinksTo companions step) (type : Bytes) :
    EvaluatedAlike companions type e (e.equalsStatement type) (e.hashStatement type) step := by
  unfold equalsStatement hashStatement
  cases h with
  | «include» h =>
    rw [h]
    dsimp only
    split
    · exact .container h ‹_›
    · exact .value h (Bool.eq_false_iff.2 ‹_›)
  | sequence h =>
    rw [h]
    exact .sequence h
  | custom h hequals hhash =>
    rw [h]
    exact .custom h hequals hhash

/-- An entry is linked if the functions that its statements call are bound. -/
theorem exists_link_iff (hstrategy : e.strategy ≠ .ignore) (type owner : Bytes) :
    (∃ step?, e.link companions owner = .ok step?) ↔
      (∀ t f m, e.equalsStatement type = .companion t f m → (companions.equals f).isSome = true) ∧
      ∀ t f m, e.hashStatement type = .companion t f m → (companions.hashes f).isSome = true := by
  unfold link equalsStatement hashStatement
  cases hs : e.strategy with
  | ignore => exact absurd hs hstrategy
  | «include» order? =>
    dsimp only
    split <;> simp
  | sequence order? orderMatters deep => simp
  | custom order? =>
    cases hequals : companions.equals (equalsCompanion e.member.name) <;>
      cases hhash : companions.hashes (hashCompanion e.member.name) <;> simp [hequals, hhash]

end ContractEntry

theorem EvaluatedAlike.member_step {companions : Companions} {type : Bytes} {e : ContractEntry}
    {x : EqualsStatement} {y : HashStatement} {step : PlanStep}
    (h : EvaluatedAlike companions type e x y step) : step.member = e.member.name := by
  cases h <;> rfl

/-! ## Contracts -/

namespace Contract

/-- The members of a contract in the order of its entries. -/
def memberNames (c : Contract) : List Bytes := c.entries.map fun e => e.member.name

theorem map_member_equals (c : Contract) :
    c.sectionReading.equals.map EqualsStatement.member = c.memberNames := by
  show (c.entries.map _).map _ = c.entries.map _
  rw [List.map_map]
  exact List.map_congr_left fun e _ => e.member_equalsStatement c.typeName

theorem map_member_hashes (c : Contract) :
    c.sectionReading.hashes.map HashStatement.member = c.memberNames := by
  show (c.entries.map _).map _ = c.entries.map _
  rw [List.map_map]
  exact List.map_congr_left fun e _ => e.member_hashStatement c.typeName

/-- The groups of the comment, one after the other, keep to the order of the entries. -/
theorem flatMap_groups {c : Contract}
    (horder : c.entries.Pairwise fun a b => a.strategy.order ≤ b.strategy.order) :
    c.sectionReading.groups.flatMap Prod.snd = c.memberNames := by
  have hentries : c.groups.flatMap Prod.snd = c.entries := flatMap_groupByKey horder
  unfold sectionReading memberNames
  rw [List.flatMap_map, ← hentries, List.map_flatMap]

variable {companions : Companions} {owner : Bytes} {es : List ContractEntry} {plan : Plan}

theorem forall₂_of_linkEntries (type : Bytes) (hstrategies : ∀ e ∈ es, e.strategy ≠ .ignore)
    (h : linkEntries companions owner es = .ok plan) :
    List.Forall₂ (fun e step => EvaluatedAlike companions type e (e.equalsStatement type)
      (e.hashStatement type) step) es plan := by
  have hevaluated : evaluatedEntries es = es :=
    List.filter_eq_self.2 fun e he => by
      rw [Strategy.isIgnore_eq_false_iff.2 (hstrategies e he)]
      rfl
  have hlinked := linkEntries_eq_ok_iff.1 h
  rw [hevaluated] at hlinked
  exact hlinked.imp fun _ _ hstep => hstep.evaluatedAlike type

variable {c : Contract}

/-- A contract is linked if all functions are bound that its code calls. -/
theorem exists_link_iff (hstrategies : ∀ e ∈ c.entries, e.strategy ≠ .ignore) :
    (∃ plan, c.link companions = .ok plan) ↔
      (∀ t f m, .companion t f m ∈ c.sectionReading.equals → (companions.equals f).isSome = true) ∧
      ∀ t f m, .companion t f m ∈ c.sectionReading.hashes →
        (companions.hashes f).isSome = true := by
  rw [link, exists_linkEntries_eq_ok_iff]
  simp only [ContractEntry.not_lacks_iff c.qualifiedName]
  constructor
  · intro h
    constructor
    · intro t f m hmem
      obtain ⟨e, he, hstatement⟩ := List.mem_map.1 hmem
      have hlink := h e he
      rw [ContractEntry.exists_link_iff (hstrategies e he) c.typeName] at hlink
      exact hlink.1 t f m hstatement
    · intro t f m hmem
      obtain ⟨e, he, hstatement⟩ := List.mem_map.1 hmem
      have hlink := h e he
      rw [ContractEntry.exists_link_iff (hstrategies e he) c.typeName] at hlink
      exact hlink.2 t f m hstatement
  · rintro ⟨hequals, hhashes⟩ e he
    rw [ContractEntry.exists_link_iff (hstrategies e he) c.typeName]
    constructor
    · intro t f m hstatement
      exact hequals t f m (List.mem_map.2 ⟨e, he, hstatement⟩)
    · intro t f m hstatement
      exact hhashes t f m (List.mem_map.2 ⟨e, he, hstatement⟩)

theorem map_member_plan (hstrategies : ∀ e ∈ c.entries, e.strategy ≠ .ignore)
    (h : c.link companions = .ok plan) : plan.map PlanStep.member = c.memberNames := by
  have halike := forall₂_of_linkEntries c.typeName hstrategies h
  clear h
  unfold memberNames
  generalize c.entries = es at halike
  induction halike with
  | nil => rfl
  | cons hstep _ ih => rw [List.map_cons, List.map_cons, hstep.member_step, ih]

/-- At each place the code and the plan treat one member alike. -/
theorem evaluatedAlike_getElem? (hstrategies : ∀ e ∈ c.entries, e.strategy ≠ .ignore)
    (h : c.link companions = .ok plan) {i : Nat} {e : ContractEntry} (he : c.entries[i]? = some e) :
    ∃ x y step, c.sectionReading.equals[i]? = some x ∧ c.sectionReading.hashes[i]? = some y ∧
      plan[i]? = some step ∧ EvaluatedAlike companions c.typeName e x y step := by
  have halike := forall₂_of_linkEntries c.typeName hstrategies h
  obtain ⟨hlength, hget⟩ := List.forall₂_iff_get.1 halike
  obtain ⟨hi, rfl⟩ := List.getElem?_eq_some_iff.1 he
  refine ⟨_, _, plan[i], ?_, ?_, List.getElem?_eq_getElem (hlength ▸ hi), hget i hi (hlength ▸ hi)⟩
  · unfold sectionReading
    rw [List.getElem?_map, he]
    rfl
  · unfold sectionReading
    rw [List.getElem?_map, he]
    rfl

end Contract

namespace ClassDeclaration

variable {fixHints : Bool} {d : ClassDeclaration} {c : Contract}

/-- In the contract of a check no entry is ignored, and places in the evaluation order ascend. -/
theorem entries_of_check (h : (d.check fixHints).contract? = some c) :
    (∀ e ∈ c.entries, e.strategy ≠ .ignore) ∧
      c.entries.Pairwise fun a b => a.strategy.order ≤ b.strategy.order := by
  rcases requestedContract?_cases (contract?_check_eq_some_iff.1 h).2 with
    ⟨wrapped, -, -, hentries⟩ | ⟨-, -, -, hentries⟩
  · rw [hentries]
    constructor
    · intro e he
      rw [List.mem_singleton.1 he]
      simp [wrapperEntry]
    · exact List.pairwise_singleton _ _
  · rw [hentries]
    constructor
    · intro e he
      have hstrategy := (mem_entries_iff.1 he).2
      exact Strategy.isIgnore_eq_false_iff.1 (Member.strategy?_eq_some_iff.1 hstrategy).2.2
    · have hle : d.entries.Pairwise fun a b => a.le b = true :=
        pairwise_sortBy ContractEntry.le_trans ContractEntry.le_total _
      apply hle.imp
      intro a b hab
      rw [ContractEntry.le_iff] at hab
      omega

/-- The section of an accepted contract and the plans that it is linked to go over its members in
one order, and treat each alike. -/
theorem evaluation_of_check (hcheck : (d.check fixHints).contract? = some c)
    (htype : isIdentifier c.typeName = true)
    (hmembers : ∀ e ∈ c.entries, isIdentifier e.member.name = true) :
    ∃ s, (readSection c.ns c.typeName).run' c.code = some s ∧
      s.groups.flatMap Prod.snd = c.memberNames ∧
      s.equals.map EqualsStatement.member = c.memberNames ∧
      s.hashes.map HashStatement.member = c.memberNames ∧
      ∀ companions,
        ((∃ plan, c.link companions = .ok plan) ↔
          (∀ t f m, .companion t f m ∈ s.equals → (companions.equals f).isSome = true) ∧
          ∀ t f m, .companion t f m ∈ s.hashes → (companions.hashes f).isSome = true) ∧
        ∀ plan, c.link companions = .ok plan →
          plan.map PlanStep.member = c.memberNames ∧
          ∀ (i : Nat) e, c.entries[i]? = some e → ∃ x y step, s.equals[i]? = some x ∧
            s.hashes[i]? = some y ∧ plan[i]? = some step ∧
            EvaluatedAlike companions c.typeName e x y step := by
  obtain ⟨hstrategies, horder⟩ := entries_of_check hcheck
  refine ⟨c.sectionReading, c.run_readSection htype hmembers, Contract.flatMap_groups horder,
    c.map_member_equals, c.map_member_hashes, ?_⟩
  intro companions
  refine ⟨Contract.exists_link_iff hstrategies, ?_⟩
  intro plan hlink
  refine ⟨Contract.map_member_plan hstrategies hlink, ?_⟩
  intro i e he
  exact Contract.evaluatedAlike_getElem? hstrategies hlink he

/-- A class whose members are not declared in the order in which they are evaluated. -/
def basket : ClassDeclaration :=
  { name := "Basket"
    ns := "shop.model"
    extensible := true
    marker? := some ⟨1, 1⟩
    base := .valueObject
    members := [
      { name := "notes", kind := .field, type := .sequence .list .text, readonly := true,
        strategies := [⟨.include (some 2), ⟨2, 1⟩⟩] },
      { name := "_owner", kind := .property, position := 1,
        strategies := [⟨.custom none, ⟨3, 1⟩⟩] },
      { name := "entries", kind := .field, type := .sequence .list .text, position := 2,
        readonly := true, strategies := [⟨.sequence (some 1) false true, ⟨4, 1⟩⟩] },
      { name := "total", kind := .property, position := 3,
        strategies := [⟨.include none, ⟨5, 1⟩⟩] }]
    functions := [⟨"Equals_Owner", true, ⟨6, 1⟩⟩, ⟨"GetHashCode_Owner", true, ⟨7, 1⟩⟩] }

def basketContract : Contract := (basket.check true).contract?.getD { typeName := [] }

/-- Companion functions that look at all of a value, under any name. -/
def plainCompanions : Companions where
  equals _ := some Node.equal
  hashes _ := some fun n => n.hash.toInt64

theorem evaluation_basket :
    (basket.check true).contract? = some basketContract ∧
      ∃ s plan, (readSection "shop.model" "Basket").run' basketContract.code = some s ∧
        basketContract.link plainCompanions = .ok plan ∧
        s.groups.flatMap Prod.snd =
          [utf8 "_owner", utf8 "total", utf8 "entries", utf8 "notes"] ∧
        s.equals.map EqualsStatement.member = s.groups.flatMap Prod.snd ∧
        s.hashes.map HashStatement.member = s.groups.flatMap Prod.snd ∧
        plan.map PlanStep.member = s.groups.flatMap Prod.snd := by
  have hcheck : (basket.check true).contract? = some basketContract := by decide
  have hnames : basketContract.memberNames =
      [utf8 "_owner", utf8 "total", utf8 "entries", utf8 "notes"] := by decide
  obtain ⟨s, hread, hgroups, hequals, hhashes, hplans⟩ :=
    evaluation_of_check hcheck (by decide) (by decide)
  obtain ⟨hlinked, hplan⟩ := hplans plainCompanions
  obtain ⟨plan, hlink⟩ := hlinked.2 ⟨fun _ _ _ _ => rfl, fun _ _ _ _ => rfl⟩
  refine ⟨hcheck, s, plan, hread, hlink, hgroups.trans hnames, ?_, ?_, ?_⟩
  · rw [hgroups, hequals]
  · rw [hgroups, hhashes]
  · rw [hgroups]
    exact (hplan plan hlink).1

end ClassDeclaration

end Equate
