import Equate.Proofs.Emission.Evaluation
import Equate.Proofs.Plan.Equality
import Equate.Proofs.Plan.Linking
/-!
# The order of evaluation does not change the verdict

A class may declare its members in any order and ask for any order of evaluation. Whether two of its
instances are equal depends on what its members are apart from that (`Member.unranked`): the steps
of a plan depend on nothing else, up to their order, and instances are equal unless some step tells
them apart. The calls that are made and the hash do depend on the order.
-/

namespace Equate

/-! ## Members without ranks -/

/-- The strategy without the place in the evaluation order that it asks for. -/
def Strategy.unranked : Strategy → Strategy
  | .include _ => .include none
  | .ignore => .ignore
  | .sequence _ orderMatters deep => .sequence none orderMatters deep
  | .custom _ => .custom none

theorem Strategy.isIgnore_unranked (s : Strategy) : s.unranked.isIgnore = s.isIgnore := by
  cases s <;> rfl

namespace Member

/-- What a member is, apart from its type, from how it is assigned and from all places: its own, and
those that its strategies ask for. -/
def unranked (m : Member) : Member where
  name := m.name
  kind := m.kind
  computed := m.computed
  isStatic := m.isStatic
  strategies := m.strategies.map fun a => ⟨a.strategy.unranked, .unknown⟩

theorem strategy?_unranked (m : Member) :
    m.unranked.strategy? = m.strategy?.map Strategy.unranked := by
  unfold strategy? unranked
  rcases m.strategies with _ | ⟨a, _ | ⟨a', as⟩⟩
  · rfl
  · simp only [List.map_cons, List.map_nil, Strategy.isIgnore_unranked, apply_ite (Option.map _)]
    rfl
  · rfl

end Member

namespace ContractEntry

variable {companions : Companions} {e : ContractEntry} {step : PlanStep}

def unranked (e : ContractEntry) : ContractEntry := ⟨e.member.unranked, e.strategy.unranked⟩

theorem linksTo_unranked_iff : e.unranked.LinksTo companions step ↔ e.LinksTo companions step := by
  have hlink : e.unranked.link companions [] = e.link companions [] := by
    unfold link unranked
    cases e.strategy <;> rfl
  rw [linksTo_iff_link_eq [], linksTo_iff_link_eq [], hlink]

theorem lacks_unranked_iff : e.unranked.Lacks companions ↔ e.Lacks companions := by
  unfold Lacks unranked
  cases e.strategy <;> rfl

end ContractEntry

/-! ## Contracts -/

namespace Contract

variable {companions : Companions} {c c' : Contract} {plan plan' : Plan}

/-- Whether two contracts have the same entries, apart from places. -/
def SameEntries (c c' : Contract) : Prop :=
  ∀ x, x ∈ c.entries.map ContractEntry.unranked ↔ x ∈ c'.entries.map ContractEntry.unranked

theorem mem_plan_iff_unranked (hlink : c.link companions = .ok plan) {step : PlanStep} :
    step ∈ plan ↔ ∃ x ∈ c.entries.map ContractEntry.unranked, x.LinksTo companions step := by
  simp only [mem_plan_iff_linksTo hlink, List.mem_map, exists_exists_and_eq_and,
    ContractEntry.linksTo_unranked_iff]

theorem SameEntries.exists_link_iff (h : c.SameEntries c') :
    (∃ plan, c.link companions = .ok plan) ↔ ∃ plan, c'.link companions = .ok plan := by
  have hlacks (c : Contract) : (∃ plan, c.link companions = .ok plan) ↔
      ∀ x ∈ c.entries.map ContractEntry.unranked, ¬ x.Lacks companions := by
    rw [link, exists_linkEntries_eq_ok_iff, List.forall_mem_map]
    simp only [ContractEntry.lacks_unranked_iff]
  rw [hlacks, hlacks]
  exact forall_congr' fun x => imp_congr_left (h x)

theorem SameEntries.equals_eq (h : c.SameEntries c') (hlink : c.link companions = .ok plan)
    (hlink' : c'.link companions = .ok plan') (a b : Instance) :
    plan.equals a b = plan'.equals a b := by
  have hsteps (step : PlanStep) : step ∈ plan ↔ step ∈ plan' := by
    rw [mem_plan_iff_unranked hlink, mem_plan_iff_unranked hlink']
    exact exists_congr fun x => and_congr_left' (h x)
  rw [Bool.eq_iff_iff, Plan.equals_iff, Plan.equals_iff]
  simp only [hsteps]

end Contract

/-! ## Classes -/

namespace ClassDeclaration

variable {fixHints fixHints' : Bool} {d d' : ClassDeclaration} {c c' : Contract}

/-- Whether two classes have the same members, apart from places. -/
def SameMembers (d d' : ClassDeclaration) : Prop :=
  ∀ m, m ∈ d.members.map Member.unranked ↔ m ∈ d'.members.map Member.unranked

theorem SameMembers.of_perm
    (h : (d.members.map Member.unranked).Perm (d'.members.map Member.unranked)) :
    d.SameMembers d' :=
  fun _ => h.mem_iff

theorem mem_map_unranked_entries {x : ContractEntry} :
    x ∈ d.entries.map ContractEntry.unranked ↔
      x.member ∈ d.members.map Member.unranked ∧ x.member.strategy? = some x.strategy := by
  simp only [List.mem_map, mem_entries_iff]
  constructor
  · rintro ⟨e, ⟨hm, hs⟩, rfl⟩
    exact ⟨⟨_, hm, rfl⟩, (Member.strategy?_unranked _).trans (congrArg _ hs)⟩
  · rintro ⟨⟨m, hm, hname⟩, hs⟩
    rw [← hname, Member.strategy?_unranked, Option.map_eq_some_iff] at hs
    obtain ⟨s, hs, hstrategy⟩ := hs
    exact ⟨⟨m, s⟩, ⟨hm, hs⟩, by rw [ContractEntry.unranked, hname, hstrategy]⟩

theorem SameMembers.sameEntries (h : d.SameMembers d')
    (hcheck : (d.check fixHints).contract? = some c)
    (hcheck' : (d'.check fixHints').contract? = some c') (hwrapper : c.wrapper = c'.wrapper) :
    c.SameEntries c' := by
  intro x
  rcases requestedContract?_cases (contract?_check_eq_some_iff.1 hcheck).2 with
    ⟨wrapped, -, hyes, hentries⟩ | ⟨-, -, hno, hentries⟩
  all_goals
    rcases requestedContract?_cases (contract?_check_eq_some_iff.1 hcheck').2 with
      ⟨wrapped', -, hyes', hentries'⟩ | ⟨-, -, hno', hentries'⟩
  · -- wrappers have one entry, which tells nothing but the type of the value
    rw [hentries, hentries']
    rfl
  · cases hyes.symm.trans (hwrapper.trans hno')
  · cases hno.symm.trans (hwrapper.trans hyes')
  · rw [hentries, hentries', mem_map_unranked_entries, mem_map_unranked_entries]
    exact and_congr_left' (h x.member)

/-- Two classes that declare the same members in any order, asking for any order of evaluation, are
linked with the same companion functions, and their plans give the same verdict on all instances. -/
theorem equals_eq_of_sameMembers (hmembers : d.SameMembers d')
    (hcheck : (d.check fixHints).contract? = some c)
    (hcheck' : (d'.check fixHints').contract? = some c') (hwrapper : c.wrapper = c'.wrapper)
    (companions : Companions) :
    ((∃ plan, c.link companions = .ok plan) ↔ ∃ plan', c'.link companions = .ok plan') ∧
      ∀ plan plan', c.link companions = .ok plan → c'.link companions = .ok plan' →
        ∀ a b, plan.equals a b = plan'.equals a b := by
  have hentries := hmembers.sameEntries hcheck hcheck' hwrapper
  exact ⟨hentries.exists_link_iff, fun _ _ hlink hlink' => hentries.equals_eq hlink hlink'⟩

/-- A class of voyages, with the given members. -/
def voyage (members : List Node) : Node :=
  let mark : Mark := ⟨0, none⟩
  let symbol (s : Bytes) : Node := .symbol mark s
  let clause (key : Bytes) (value : Node) : List Node := [.keyword mark key, value]
  let function (name : Bytes) : Node := .list mark (symbol "fn" :: clause "name" (symbol name))
  .list mark (symbol "class" :: clause "name" (symbol "Voyage") ++
    clause "partial" (.bool mark true) ++ clause "base" (symbol "value-object") ++
    clause "attrs" (.vector mark [symbol "value-object"]) ++
    clause "members" (.vector mark members) ++
    clause "functions" (.vector mark [function "Equals_Captain", function "GetHashCode_Captain"]))

/-- A member of a voyage, of type `i32` unless it holds ports. -/
def voyageMember (name strategy : Bytes) (order? : Option Int64) : Node :=
  let mark : Mark := ⟨0, none⟩
  let symbol (s : Bytes) : Node := .symbol mark s
  let clause (key : Bytes) (value : Node) : List Node := [.keyword mark key, value]
  let type : Node :=
    if name = utf8 "ports" then .list mark [symbol "set", symbol "i32"] else symbol "i32"
  .list mark (symbol "property" :: clause "name" (symbol name) ++ clause "type" type ++
    clause "equality" (.list mark
      (symbol strategy :: (order?.map fun o => clause "order" (.int mark o)).getD [])))

def voyageClass (members : List Node) : ClassDeclaration :=
  match (Declaration.read {} (voyage members)).declaration? with
  | some (.classDeclaration d) => d
  | _ => { name := [] }

def voyageContract (members : List Node) : Contract :=
  ((voyageClass members).check true).contract?.getD { typeName := [] }

def voyageMembers : List Node :=
  [voyageMember "ship" "include" none, voyageMember "log" "ignore" none,
    voyageMember "ports" "sequence" none, voyageMember "_captain" "custom" none]

def voyageMembers' : List Node :=
  [voyageMember "ports" "sequence" (some 3), voyageMember "_captain" "custom" (some (-1)),
    voyageMember "log" "ignore" none, voyageMember "ship" "include" (some 3)]

theorem equals_eq_voyage :
    let d := voyageClass voyageMembers
    let d' := voyageClass voyageMembers'
    let c := voyageContract voyageMembers
    let c' := voyageContract voyageMembers'
    (Declaration.read {} (voyage voyageMembers)).declaration? = some (.classDeclaration d) ∧
      (Declaration.read {} (voyage voyageMembers')).declaration? = some (.classDeclaration d') ∧
      d.SameMembers d' ∧ (d.check true).contract? = some c ∧ (d'.check true).contract? = some c' ∧
      c.wrapper = c'.wrapper ∧
      c.entries.map (fun e => e.member.name) = [utf8 "ship", utf8 "ports", utf8 "_captain"] ∧
      c'.entries.map (fun e => e.member.name) = [utf8 "_captain", utf8 "ports", utf8 "ship"] ∧
      ∃ plan plan', c.link plainCompanions = .ok plan ∧ c'.link plainCompanions = .ok plan' ∧
        ∀ a b, plan.equals a b = plan'.equals a b := by
  intro d d' c c'
  have hmembers : d.SameMembers d' := .of_perm (by decide)
  have hcheck : (d.check true).contract? = some c := by decide
  have hcheck' : (d'.check true).contract? = some c' := by decide
  have hwrapper : c.wrapper = c'.wrapper := by decide
  obtain ⟨hlinked, hequals⟩ :=
    equals_eq_of_sameMembers hmembers hcheck hcheck' hwrapper plainCompanions
  obtain ⟨plan, hlink⟩ : ∃ plan, c.link plainCompanions = .ok plan :=
    exists_linkEntries_eq_ok_iff.2 fun _ _ hlacks => by
      rcases hlacks.2 with hnone | hnone <;> cases hnone
  obtain ⟨plan', hlink'⟩ := hlinked.1 ⟨plan, hlink⟩
  exact ⟨by decide, by decide, hmembers, hcheck, hcheck', hwrapper, by decide, by decide, plan,
    plan', hlink, hlink', hequals plan plan' hlink hlink'⟩

end ClassDeclaration

end Equate
