import Equate.Proofs.Contract.Acceptance
import Equate.Proofs.Declaration.Quotes
/-!
# The entries of a contract

The contract of a value object lists the members that take part, in the order in which they are
evaluated: by the order that was asked for, and then by place. As the members of a class that was
read stand at different places, this order is strict. The companions of the custom entries do not
clash, as the class was accepted. A wrapper has one entry.
-/

namespace Equate

/-! ## Places of members -/

namespace Member

theorem position_eq_of_read {position : Nat} {form : Node} {m : Member}
    (h : (read position form).2 = some m) : m.position = position := by
  unfold read at h
  split at h
  · cases h
  · dsimp only at h
    split at h
    · cases h
    · split at h
      · cases h
      · split at h <;> rw [← Option.some.inj (Option.ite_none_right_eq_some.1 h).2]

/-- Members are numbered as they are accepted: a form that is left out takes no place. -/
theorem map_position_readAll (seen : Std.TreeMap Bytes Location) (position : Nat)
    (forms : List Node) :
    (readAll seen position forms).2.map Member.position =
      List.range' position (readAll seen position forms).2.length := by
  induction forms generalizing seen position with
  | nil => rfl
  | cons form rest ih =>
    simp only [readAll]
    split
    · exact ih seen position
    · rename_i m hread
      split
      -- A member whose name is taken leaves its place to the next one.
      · exact ih seen position
      · rw [List.map_cons, List.length_cons, List.range'_succ, position_eq_of_read hread, ih]

end Member

namespace ClassDeclaration

theorem map_position_of_read {form : Node} {d : ClassDeclaration}
    (h : (read form).declaration? = some d) :
    d.members.map Member.position = List.range d.members.length := by
  unfold read at h
  dsimp only at h
  split at h
  · cases h
  · cases h
    rw [List.range_eq_range']
    exact Member.map_position_readAll {} 0 _

end ClassDeclaration

theorem Declaration.read_eq_class {rep : Reporter} {form : Node} {d : ClassDeclaration}
    (h : (Declaration.read rep form).declaration? = some (.classDeclaration d)) :
    (ClassDeclaration.read form).declaration? = some d := by
  unfold Declaration.read at h
  split at h
  · rw [Reading.ofPartial_declaration?, Option.map_eq_some_iff] at h
    obtain ⟨e, he, hd⟩ := h
    cases hd
    exact he
  · split at h
    · rw [Reading.ofPartial_declaration?, Option.map_eq_some_iff] at h
      obtain ⟨e, -, hd⟩ := h
      cases hd
    · cases h

/-! ## The evaluation order -/

theorem Strategy.isIgnore_eq_false_iff {s : Strategy} : s.isIgnore = false ↔ s ≠ .ignore := by
  cases s <;> simp [isIgnore]

namespace ContractEntry

/-- Whether an entry is evaluated in front of another one. A strategy that asks for no place counts
as one that asks for place 0. -/
def Before (a b : ContractEntry) : Prop :=
  a.strategy.order < b.strategy.order ∨
    (a.strategy.order = b.strategy.order ∧ a.member.position < b.member.position)

variable {a b : ContractEntry}

theorem le_iff : le a b = true ↔ a.strategy.order < b.strategy.order ∨
    (a.strategy.order = b.strategy.order ∧ a.member.position ≤ b.member.position) := by
  simp [le]

theorem le_trans (a b c : ContractEntry) (hab : le a b = true) (hbc : le b c = true) :
    le a c = true := by
  rw [le_iff] at hab hbc ⊢
  omega

theorem le_total (a b : ContractEntry) : le a b = true ∨ le b a = true := by
  rw [le_iff, le_iff]
  omega

theorem before_of_le (h : le a b = true) (hne : a.member.position ≠ b.member.position) :
    a.Before b := by
  rw [le_iff] at h
  unfold Before
  omega

end ContractEntry

namespace ClassDeclaration

variable {fixHints : Bool} {d : ClassDeclaration} {c : Contract} {e : ContractEntry}

/-- A relation that holds between the entries of earlier and later members, and does not depend on
which is which, holds between the entries in evaluation order. -/
theorem pairwise_entries {R : ContractEntry → ContractEntry → Prop} (hsymm : ∀ a b, R a b → R b a)
    (h : d.members.Pairwise fun m n => ∀ s, m.strategy? = some s → ∀ t, n.strategy? = some t →
      R ⟨m, s⟩ ⟨n, t⟩) :
    d.entries.Pairwise R := by
  rw [entries, (sortBy_perm _ _).pairwise_iff (hsymm _ _)]
  refine List.pairwise_filterMap.2 (h.imp fun hR a ha b hb => ?_)
  obtain ⟨s, hs, rfl⟩ := Option.map_eq_some_iff.1 ha
  obtain ⟨t, ht, rfl⟩ := Option.map_eq_some_iff.1 hb
  exact hR s hs t ht

theorem mem_entries_iff :
    e ∈ d.entries ↔ e.member ∈ d.members ∧ e.member.strategy? = some e.strategy := by
  rw [entries, mem_sortBy, List.mem_filterMap]
  constructor
  · rintro ⟨m, hm, he⟩
    obtain ⟨s, hs, rfl⟩ := Option.map_eq_some_iff.1 he
    exact ⟨hm, hs⟩
  · rintro ⟨hm, hs⟩
    exact ⟨e.member, hm, Option.map_eq_some_iff.2 ⟨_, hs, rfl⟩⟩

theorem pairwise_position_entries (hpositions : (d.members.map Member.position).Nodup) :
    d.entries.Pairwise fun a b => a.member.position ≠ b.member.position :=
  pairwise_entries (fun _ _ => Ne.symm) ((List.pairwise_map.1 hpositions).imp fun h _ _ _ _ => h)

/-- Members at different places are evaluated in a strict order. -/
theorem pairwise_before_entries (hpositions : (d.members.map Member.position).Nodup) :
    d.entries.Pairwise ContractEntry.Before := by
  -- Sorting alone leaves room for ties, and places do away with them.
  have hle : d.entries.Pairwise fun a b => a.le b = true :=
    pairwise_sortBy ContractEntry.le_trans ContractEntry.le_total _
  exact hle.imp₂ (fun _ _ => ContractEntry.before_of_le) (pairwise_position_entries hpositions)

/-- In a class that is accepted, no two custom members share their companions. -/
theorem pairwise_companionSuffix_entries
    (h : ∀ v ∈ d.valueObjectViolations, v.rule.severity = .warning) :
    d.entries.Pairwise fun a b => a.strategy.isCustom = true → b.strategy.isCustom = true →
      companionSuffix a.member.name ≠ companionSuffix b.member.name := by
  refine pairwise_entries (fun a b hne hb ha => (hne ha hb).symm) ?_
  rw [List.pairwise_iff_getElem]
  intro i j hi hj hij s hs t ht hcustomi hcustomj hname
  have hmem : d.members[i] ∈ d.members.take j :=
    List.mem_take_iff_getElem.2 ⟨i, by omega, rfl⟩
  have hmembers : d.members = d.members.take j ++ d.members[j] :: d.members.drop (j + 1) := by
    rw [← List.drop_eq_getElem_cons, List.take_append_drop]
  -- The later of two such members would be reported, with the first of them.
  obtain ⟨front, first, between, hbefore, hshares, hfirst⟩ :=
    Member.exists_first_sharing hmem
      (Member.sharesCompanions_iff.2 ⟨Member.isCustom_of_strategy? hs hcustomi, hname⟩)
  have hbreaks : d.members[j].Breaks d (d.members.take j)
      (.duplicateCompanionNames d.members[j] first) :=
    .duplicateCompanionNames (Member.isCustom_of_strategy? ht hcustomj) hbefore hshares hfirst
  exact absurd (h _ (mem_valueObjectViolations_of_breaks hmembers hbreaks)) nofun

/-! ## Contracts -/

/-- A contract is asked for by a wrapper, or by a marked value object. -/
theorem requestedContract?_cases (h : d.requestedContract? = some c) :
    (∃ wrapped, d.base = .wrapper wrapped ∧ c.wrapper = true ∧
      c.entries = [wrapperEntry wrapped]) ∨
    (d.marker?.isSome = true ∧ d.base = .valueObject ∧ c.wrapper = false ∧
      c.entries = d.entries) := by
  rw [requestedContract?] at h
  split at h
  · rename_i wrapped hbase
    cases h
    exact .inl ⟨wrapped, hbase, rfl, rfl⟩
  · rename_i hbase hmarker
    cases h
    exact .inr ⟨by rw [hmarker]; rfl, hbase, rfl, rfl⟩
  · cases h

/-- The contract of a class that was read holds the members that take part, each once and with its
own strategy, in a strict evaluation order. The contract of a wrapper holds the wrapped value. -/
theorem entries_of_contract {rep : Reporter} {form : Node}
    (hread : (Declaration.read rep form).declaration? = some (.classDeclaration d))
    (hcheck : (d.check fixHints).contract? = some c) :
    d.members.map Member.position = List.range d.members.length ∧
    (c.wrapper = false →
      (∀ e, e ∈ c.entries ↔ e.member ∈ d.members ∧ e.member.isStatic = false ∧
        e.member.eligible = true ∧ (∃ l, e.member.strategies = [⟨e.strategy, l⟩]) ∧
        e.strategy ≠ .ignore) ∧
      (c.entries.map ContractEntry.member).Nodup ∧
      c.entries.Pairwise ContractEntry.Before ∧
      c.entries.Pairwise fun a b => a.strategy.isCustom = true → b.strategy.isCustom = true →
        companionSuffix a.member.name ≠ companionSuffix b.member.name) ∧
    (c.wrapper = true → ∃ wrapped, d.base = .wrapper wrapped ∧
      c.entries = [⟨{ name := "Value", kind := .property, type := wrapped }, .include none⟩]) := by
  have hpositions := map_position_of_read (Declaration.read_eq_class hread)
  have hnodup : (d.members.map Member.position).Nodup := hpositions ▸ List.nodup_range
  obtain ⟨hsuccess, hrequested⟩ := contract?_check_eq_some_iff.1 hcheck
  refine ⟨hpositions, ?_⟩
  rcases requestedContract?_cases hrequested with
    ⟨wrapped, hbase, hwrapper, hentries⟩ | ⟨hmarker, hbase, hwrapper, hentries⟩
  · refine ⟨fun hno => ?_, fun _ => ⟨wrapped, hbase, hentries⟩⟩
    rw [hwrapper] at hno
    cases hno
  · refine ⟨fun _ => ?_, fun hyes => ?_⟩
    · rw [success_check_iff, violations_of_valueObject hmarker hbase] at hsuccess
      rw [hentries]
      refine ⟨fun e => ?_, ?_, pairwise_before_entries hnodup,
        pairwise_companionSuffix_entries hsuccess⟩
      · rw [mem_entries_iff, Member.strategy?_eq_some_iff, Member.isCarrier_iff, and_assoc,
          Strategy.isIgnore_eq_false_iff]
      · exact List.pairwise_map.2 ((pairwise_position_entries hnodup).imp
          fun hne heq => hne (congrArg Member.position heq))
    · rw [hwrapper] at hyes
      cases hyes

/-- A class with a member that has no name, one whose name is taken, and orders at both ends of
their range. -/
def ranked : Node :=
  let mark : Mark := ⟨0, none⟩
  let symbol (s : Bytes) : Node := .symbol mark s
  let clause (key : Bytes) (value : Node) : List Node := [.keyword mark key, value]
  let strategy (head : Bytes) (order? : Option Int64) : Node :=
    .list mark (symbol head :: (order?.map fun o => clause "order" (.int mark o)).getD [])
  let field (name : Bytes) (equality : Node) : Node :=
    .list mark (symbol "field" :: clause "name" (symbol name) ++ clause "type" (symbol "i32") ++
      clause "equality" equality)
  let function (name : Bytes) : Node := .list mark (symbol "fn" :: clause "name" (symbol name))
  .list mark (symbol "class" :: clause "name" (symbol "Ranked") ++
    clause "partial" (.bool mark true) ++ clause "base" (symbol "value-object") ++
    clause "attrs" (.vector mark [symbol "value-object"]) ++
    clause "members" (.vector mark [
      field "last" (strategy "include" (some 2147483647)),
      field "" (strategy "include" none),
      field "_first" (strategy "custom" (some (-2147483648))),
      field "last" (strategy "ignore" none),
      field "plain" (strategy "include" none),
      field "skipped" (strategy "ignore" none),
      field "zero" (strategy "include" (some 0)),
      field "m_low" (strategy "custom" (some (-7)))]) ++
    clause "functions" (.vector mark [function "Equals_First", function "GetHashCode_First",
      function "Equals_Low", function "GetHashCode_Low"]))

def rankedClass : ClassDeclaration :=
  match (Declaration.read {} ranked).declaration? with
  | some (.classDeclaration d) => d
  | _ => { name := [] }

def rankedContract : Contract := (rankedClass.check true).contract?.getD { typeName := [] }

theorem entries_ranked :
    (Declaration.read {} ranked).declaration? = some (.classDeclaration rankedClass) ∧
      (rankedClass.check true).contract? = some rankedContract ∧
      rankedContract.entries.map (fun e => (e.member.name, e.member.position)) =
        [(utf8 "_first", 1), (utf8 "m_low", 5), (utf8 "plain", 2), (utf8 "zero", 4),
          (utf8 "last", 0)] ∧
      rankedContract.entries.Pairwise ContractEntry.Before := by
  have hread : (Declaration.read {} ranked).declaration? = some (.classDeclaration rankedClass) := by
    decide +kernel
  have hcheck : (rankedClass.check true).contract? = some rankedContract := by decide +kernel
  obtain ⟨-, hvalueObject, -⟩ := entries_of_contract hread hcheck
  obtain ⟨-, -, hbefore, -⟩ := hvalueObject (by decide +kernel)
  exact ⟨hread, hcheck, by decide +kernel, hbefore⟩

end ClassDeclaration

end Equate
