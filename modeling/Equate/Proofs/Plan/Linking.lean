import Mathlib.Data.List.Forall2
import Mathlib.Data.List.TakeWhile
import Equate.Plan
import Equate.Proofs.Contract.Entries
/-!
# Linking

An entry is linked to one step (`LinksTo`), unless it is ignored or asks for a companion function
that is not bound (`Lacks`). So a plan has the steps of the entries that are evaluated, in their
order (`linkEntries_eq_ok_iff`), and linking fails at the first entry that lacks a function
(`linkEntries_eq_error_iff`). The check looks for the same functions among the static ones of the
class, so the contract of a class can be linked wherever these are bound.
-/

namespace Equate

variable {companions : Companions} {type : Bytes}

/-! ## Entries -/

namespace ContractEntry

/-- The step that an entry is linked to. -/
inductive LinksTo (companions : Companions) (e : ContractEntry) : PlanStep → Prop
  | include {order? : Option Int} (h : e.strategy = .include order?) :
    LinksTo companions e (.include e.member.name)
  | sequence {order? : Option Int} {orderMatters deep : Bool}
    (h : e.strategy = .sequence order? orderMatters deep) :
    LinksTo companions e (.sequence e.member.name orderMatters deep)
  | custom {order? : Option Int} {equals : Node → Node → Bool} {hash : Node → Int64}
    (h : e.strategy = .custom order?)
    (hequals : companions.equals (equalsCompanion e.member.name) = some equals)
    (hhash : companions.hashes (hashCompanion e.member.name) = some hash) :
    LinksTo companions e (.custom e.member.name equals hash)

/-- Whether an entry asks for a companion function that is not bound. -/
def Lacks (companions : Companions) (e : ContractEntry) : Prop :=
  e.strategy.isCustom = true ∧
    (companions.equals (equalsCompanion e.member.name) = none ∨
      companions.hashes (hashCompanion e.member.name) = none)

/-- The error for an entry that lacks a function; the one that compares is looked up first. -/
def missing (companions : Companions) (type : Bytes) (e : ContractEntry) : LinkError :=
  if companions.equals (equalsCompanion e.member.name) = none then
    ⟨equalsCompanion e.member.name, e.member.name, type⟩
  else ⟨hashCompanion e.member.name, e.member.name, type⟩

variable {e : ContractEntry} {step : PlanStep}

theorem LinksTo.isIgnore_eq (h : e.LinksTo companions step) : e.strategy.isIgnore = false := by
  cases h with
  | «include» h | sequence h | custom h => rw [h]; rfl

theorem Lacks.isIgnore_eq (h : e.Lacks companions) : e.strategy.isIgnore = false := by
  have hcustom := h.1
  cases hs : e.strategy with
  | ignore => rw [hs] at hcustom; cases hcustom
  | _ => rfl

theorem LinksTo.not_lacks (h : e.LinksTo companions step) : ¬ e.Lacks companions := by
  rintro ⟨hcustom, hnone⟩
  cases h with
  | «include» h | sequence h => rw [h] at hcustom; cases hcustom
  | custom h hequals hhash =>
    rw [hequals, hhash] at hnone
    rcases hnone with hnone | hnone <;> cases hnone

/-- What linking makes of an entry. -/
theorem link_cases (companions : Companions) (type : Bytes) (e : ContractEntry) :
    (e.strategy.isIgnore = true ∧ e.link companions type = .ok none) ∨
    (∃ step, e.LinksTo companions step ∧ e.link companions type = .ok (some step)) ∨
    (e.Lacks companions ∧ e.link companions type = .error (e.missing companions type)) := by
  unfold link missing
  cases hs : e.strategy with
  | ignore => exact .inl ⟨rfl, rfl⟩
  | «include» order? => exact .inr (.inl ⟨_, .include hs, rfl⟩)
  | sequence order? orderMatters deep => exact .inr (.inl ⟨_, .sequence hs, rfl⟩)
  | custom order? =>
    have hcustom : e.strategy.isCustom = true := by rw [hs]; rfl
    cases hequals : companions.equals (equalsCompanion e.member.name) with
    | none => exact .inr (.inr ⟨⟨hcustom, .inl hequals⟩, by simp [hequals]⟩)
    | some equals =>
      cases hhash : companions.hashes (hashCompanion e.member.name) with
      | none => exact .inr (.inr ⟨⟨hcustom, .inr hhash⟩, by simp [hequals, hhash]⟩)
      | some hash => exact .inr (.inl ⟨_, .custom hs hequals hhash, by simp [hequals, hhash]⟩)

theorem LinksTo.link_eq (h : e.LinksTo companions step) :
    e.link companions type = .ok (some step) := by
  cases h with
  | «include» h | sequence h => rw [link, h]
  | custom h hequals hhash => rw [link, h]; simp only [hequals, hhash]

theorem linksTo_iff_link_eq (type : Bytes) :
    e.LinksTo companions step ↔ e.link companions type = .ok (some step) := by
  refine ⟨LinksTo.link_eq, fun h => ?_⟩
  rcases e.link_cases companions type with ⟨-, hlink⟩ | ⟨step', hstep, hlink⟩ | ⟨-, hlink⟩
  · cases h.symm.trans hlink
  · cases h.symm.trans hlink
    exact hstep
  · cases h.symm.trans hlink

theorem not_lacks_iff (type : Bytes) :
    ¬ e.Lacks companions ↔ ∃ step?, e.link companions type = .ok step? := by
  rcases e.link_cases companions type with ⟨hs, hlink⟩ | ⟨step, hstep, hlink⟩ | ⟨hlacks, hlink⟩
  · refine iff_of_true (fun h => ?_) ⟨_, hlink⟩
    cases hs.symm.trans h.isIgnore_eq
  · exact iff_of_true hstep.not_lacks ⟨_, hlink⟩
  · refine iff_of_false (not_not_intro hlacks) ?_
    rintro ⟨step?, h⟩
    cases hlink.symm.trans h

theorem LinksTo.unique {step' : PlanStep} (h : e.LinksTo companions step)
    (h' : e.LinksTo companions step') : step = step' := by
  have hlink := ((linksTo_iff_link_eq []).1 h).symm.trans h'.link_eq
  cases hlink
  rfl

end ContractEntry

/-! ## Contracts -/

/-- The entries that are not ignored. -/
def evaluatedEntries (es : List ContractEntry) : List ContractEntry :=
  es.filter fun e => !e.strategy.isIgnore

/-- The entries of a contract that are evaluated, in order. -/
def Contract.evaluated (c : Contract) : List ContractEntry := evaluatedEntries c.entries

section

variable {e : ContractEntry} {es : List ContractEntry} {step : PlanStep} {plan : Plan}

theorem linkEntries_cons_of_ignored (hlink : e.link companions type = .ok none) :
    linkEntries companions type (e :: es) = linkEntries companions type es := by
  rw [linkEntries, hlink]
  cases linkEntries companions type es <;> rfl

theorem linkEntries_cons_of_linked (hlink : e.link companions type = .ok (some step)) :
    linkEntries companions type (e :: es) = (linkEntries companions type es).map (step :: ·) := by
  rw [linkEntries, hlink]
  cases linkEntries companions type es <;> rfl

theorem linkEntries_cons_of_lacks (h : e.Lacks companions) :
    linkEntries companions type (e :: es) = .error (e.missing companions type) := by
  rcases e.link_cases companions type with ⟨hs, -⟩ | ⟨step, hstep, -⟩ | ⟨-, hlink⟩
  · cases hs.symm.trans h.isIgnore_eq
  · exact absurd h hstep.not_lacks
  · rw [linkEntries, hlink]

theorem evaluatedEntries_cons_of_ignored (h : e.strategy.isIgnore = true) :
    evaluatedEntries (e :: es) = evaluatedEntries es :=
  List.filter_cons_of_neg (by simp [h])

theorem evaluatedEntries_cons_of_evaluated (h : e.strategy.isIgnore = false) :
    evaluatedEntries (e :: es) = e :: evaluatedEntries es :=
  List.filter_cons_of_pos (by simp [h])

/-- A plan has one step for each entry that is evaluated. -/
theorem linkEntries_eq_ok_iff :
    linkEntries companions type es = .ok plan ↔
      List.Forall₂ (ContractEntry.LinksTo companions) (evaluatedEntries es) plan := by
  induction es generalizing plan with
  | nil =>
    show Except.ok [] = Except.ok plan ↔ List.Forall₂ _ [] plan
    rw [List.forall₂_nil_left_iff, Except.ok.injEq, eq_comm]
  | cons e es ih =>
    -- Both sides pass over an ignored entry, and neither holds for one that lacks a function.
    rcases e.link_cases companions type with ⟨hs, hlink⟩ | ⟨step, hstep, hlink⟩ | ⟨hlacks, -⟩
    · rw [linkEntries_cons_of_ignored hlink, evaluatedEntries_cons_of_ignored hs, ih]
    · rw [linkEntries_cons_of_linked hlink, evaluatedEntries_cons_of_evaluated hstep.isIgnore_eq,
        List.forall₂_cons_left_iff]
      constructor
      · intro h
        cases hes : linkEntries companions type es with
        | error err => rw [hes] at h; cases h
        | ok steps => rw [hes] at h; cases h; exact ⟨step, steps, hstep, ih.1 hes, rfl⟩
      · rintro ⟨step', steps, hstep', hsteps, rfl⟩
        rw [ih.2 hsteps, hstep.unique hstep']
        rfl
    · rw [linkEntries_cons_of_lacks hlacks, evaluatedEntries_cons_of_evaluated hlacks.isIgnore_eq,
        List.forall₂_cons_left_iff]
      constructor
      · intro h
        cases h
      · rintro ⟨step, -, hstep, -⟩
        exact absurd hlacks hstep.not_lacks

theorem mem_plan_iff_of_forall₂ (h : List.Forall₂ (ContractEntry.LinksTo companions) es plan) :
    step ∈ plan ↔ ∃ e ∈ es, e.LinksTo companions step := by
  induction h with
  | nil => simp
  | @cons e step' es plan hstep _ ih =>
    rw [List.mem_cons, ih, List.exists_mem_cons_iff]
    refine or_congr_left ⟨?_, fun h => h.unique hstep⟩
    rintro rfl
    exact hstep

/-- A plan has the steps that its entries are linked to, and no others. -/
theorem mem_plan_iff_linksTo (h : linkEntries companions type es = .ok plan) :
    step ∈ plan ↔ ∃ e ∈ es, e.LinksTo companions step := by
  rw [mem_plan_iff_of_forall₂ (linkEntries_eq_ok_iff.1 h)]
  refine exists_congr fun e => and_congr_left fun hstep => ?_
  rw [evaluatedEntries, List.mem_filter, hstep.isIgnore_eq]
  exact and_iff_left rfl

theorem linkEntries_cons_eq_error_iff {err : LinkError} (h : ¬ e.Lacks companions) :
    linkEntries companions type (e :: es) = .error err ↔
      linkEntries companions type es = .error err := by
  rcases e.link_cases companions type with ⟨-, hlink⟩ | ⟨step, -, hlink⟩ | ⟨hlacks, -⟩
  · rw [linkEntries_cons_of_ignored hlink]
  · rw [linkEntries_cons_of_linked hlink]
    cases linkEntries companions type es <;> simp [Except.map]
  · exact absurd hlacks h

theorem exists_linkEntries_eq_error_iff :
    (∃ err, linkEntries companions type es = .error err) ↔ ∃ e ∈ es, e.Lacks companions := by
  induction es with
  | nil => simp [linkEntries]
  | cons x es ih =>
    rw [List.exists_mem_cons_iff]
    by_cases hx : x.Lacks companions
    · exact iff_of_true ⟨_, linkEntries_cons_of_lacks hx⟩ (.inl hx)
    · simp only [linkEntries_cons_eq_error_iff hx, ih, hx, false_or]

theorem exists_linkEntries_eq_ok_iff :
    (∃ plan, linkEntries companions type es = .ok plan) ↔ ∀ e ∈ es, ¬ e.Lacks companions := by
  have herror : (∃ err, linkEntries companions type es = .error err) ↔
      ∃ e ∈ es, e.Lacks companions :=
    exists_linkEntries_eq_error_iff
  cases hlink : linkEntries companions type es with
  | ok plan =>
    refine iff_of_true ⟨plan, rfl⟩ fun e he hlacks => ?_
    obtain ⟨err, herr⟩ := herror.2 ⟨e, he, hlacks⟩
    cases hlink.symm.trans herr
  | error err =>
    obtain ⟨e, he, hlacks⟩ := herror.1 ⟨err, hlink⟩
    exact iff_of_false nofun fun h => h e he hlacks

/-- Linking fails at the first entry that lacks a function. -/
theorem linkEntries_eq_error_iff {err : LinkError} :
    linkEntries companions type es = .error err ↔
      ∃ front e rest, es = front ++ e :: rest ∧ (∀ x ∈ front, ¬ x.Lacks companions) ∧
        e.Lacks companions ∧ err = e.missing companions type := by
  induction es with
  | nil => simp [linkEntries]
  | cons x es ih =>
    by_cases hx : x.Lacks companions
    · rw [linkEntries_cons_of_lacks hx, Except.error.injEq, eq_comm]
      constructor
      · rintro rfl
        exact ⟨[], x, es, rfl, List.forall_mem_nil _, hx, rfl⟩
      · rintro ⟨_ | ⟨y, front⟩, e, rest, hes, hfront, -, rfl⟩
        · cases hes
          rfl
        · cases hes
          exact absurd hx (hfront x List.mem_cons_self)
    · rw [linkEntries_cons_eq_error_iff hx, ih]
      constructor
      · rintro ⟨front, e, rest, rfl, hfront, he⟩
        exact ⟨x :: front, e, rest, rfl, List.forall_mem_cons.2 ⟨hx, hfront⟩, he⟩
      · rintro ⟨_ | ⟨y, front⟩, e, rest, hes, hfront, he⟩
        · cases hes
          exact absurd he.1 hx
        · cases hes
          exact ⟨front, e, rest, rfl, (List.forall_mem_cons.1 hfront).2, he⟩

end

/-- The message in full, unless a name has a NUL byte, which would end it. -/
theorem LinkError.message_eq (err : LinkError)
    (hnul : Ascii.nul ∉ err.function ++ err.member ++ err.type) :
    err.message = utf8 "no callable bound for '" ++ err.function ++ utf8 "' (member '" ++
      err.member ++ utf8 "' of " ++ err.type ++ utf8 ")" := by
  have hfront : Ascii.nul ∉ utf8 "no callable bound for '" := by decide
  have hmiddle : Ascii.nul ∉ utf8 "' (member '" := by decide
  have hbehind : Ascii.nul ∉ utf8 "' of " := by decide
  have hend : Ascii.nul ∉ utf8 ")" := by decide
  unfold message Bytes.untilNul
  apply List.takeWhile_eq_self_iff.2
  intro b hb
  rw [bne_iff_ne]
  rintro rfl
  simp only [List.mem_append, not_or] at hb hnul
  tauto

/-! ## Classes -/

namespace ClassDeclaration

variable {fixHints : Bool} {d : ClassDeclaration} {c : Contract} {e : ContractEntry}

/-- The check finds the functions of a custom entry under the names by which they are linked. -/
theorem exists_functions_of_check (hcheck : (d.check fixHints).contract? = some c)
    (he : e ∈ c.entries) (hcustom : e.strategy.isCustom = true) :
    (∃ f ∈ d.functions, f.isStatic = true ∧ f.name = equalsCompanion e.member.name) ∧
      ∃ f ∈ d.functions, f.isStatic = true ∧ f.name = hashCompanion e.member.name := by
  obtain ⟨hsuccess, hrequested⟩ := contract?_check_eq_some_iff.1 hcheck
  rcases requestedContract?_cases hrequested with
    ⟨wrapped, -, -, hentries⟩ | ⟨hmarker, hbase, -, hentries⟩
  · -- the entry of a wrapper is not custom
    rw [hentries, List.mem_singleton] at he
    rw [he] at hcustom
    cases hcustom
  · rw [hentries, mem_entries_iff, Member.strategy?_eq_some_iff] at he
    obtain ⟨hm, hcarrier, ⟨l, hl⟩, -⟩ := he
    obtain ⟨before, after, hmembers⟩ := List.append_of_mem hm
    obtain ⟨hstatic, heligible⟩ := Member.isCarrier_iff.1 hcarrier
    rw [success_check_iff, violations_of_valueObject hmarker hbase,
      valueObjectViolations_warnings_iff] at hsuccess
    have hconforms := hsuccess.2 before e.member after hmembers hstatic
    have hyes : ¬ (e.member.kind = .method ∨ e.member.computed = true) := by
      rw [← Member.eligible_eq_false_iff, heligible]
      nofun
    rw [Member.Conforms, if_neg hyes] at hconforms
    obtain ⟨hequals, hhash, -⟩ := hconforms.2.2 (Member.hasOnly_iff.2 ⟨_, hl, hcustom⟩)
    exact ⟨hequals, hhash⟩

end ClassDeclaration

/-- Linking fails exactly if some custom entry lacks a function, and the error tells of the first
such entry, and of its function that compares rather than the one that hashes. So the contract of a
class can be linked wherever all static functions that the class declares are bound. -/
theorem link_error_iff_lacks (companions : Companions) :
    (∀ c : Contract,
      ((∃ err, c.link companions = .error err) ↔ ∃ e ∈ c.entries, e.Lacks companions) ∧
      ∀ err, c.link companions = .error err ↔
        ∃ front e rest, c.entries = front ++ e :: rest ∧ (∀ x ∈ front, ¬ x.Lacks companions) ∧
          e.Lacks companions ∧ err = e.missing companions c.qualifiedName) ∧
    (∀ err : LinkError, Ascii.nul ∉ err.function ++ err.member ++ err.type →
      err.message = utf8 "no callable bound for '" ++ err.function ++ utf8 "' (member '" ++
        err.member ++ utf8 "' of " ++ err.type ++ utf8 ")") ∧
    ∀ (fixHints : Bool) (d : ClassDeclaration) (c : Contract),
      (d.check fixHints).contract? = some c →
      (∀ f ∈ d.functions, f.isStatic = true →
        (companions.equals f.name).isSome = true ∧ (companions.hashes f.name).isSome = true) →
      ∃ plan, c.link companions = .ok plan := by
  refine ⟨fun c => ⟨exists_linkEntries_eq_error_iff, fun err => linkEntries_eq_error_iff⟩,
    LinkError.message_eq, fun fixHints d c hcheck hbound => ?_⟩
  refine exists_linkEntries_eq_ok_iff.2 fun e he hlacks => ?_
  obtain ⟨⟨f, hf, hfstatic, hfname⟩, g, hg, hgstatic, hgname⟩ :=
    ClassDeclaration.exists_functions_of_check hcheck he hlacks.1
  have hequals := (hbound f hf hfstatic).1
  have hhash := (hbound g hg hgstatic).2
  rcases hlacks.2 with hnone | hnone
  · rw [hfname, hnone] at hequals
    cases hequals
  · rw [hgname, hnone] at hhash
    cases hhash

/-- Members of a ticket; the holder is declared behind the seat and evaluated in front of it. -/
def ticketSeat : Member :=
  { name := "m_seat", kind := .property, strategies := [⟨.custom (some 2), ⟨2, 1⟩⟩] }

def ticketHolder : Member :=
  { name := "_holder", kind := .property, position := 1, strategies := [⟨.custom none, ⟨3, 1⟩⟩] }

def ticket : ClassDeclaration :=
  { name := "Ticket"
    ns := "fair"
    extensible := true
    marker? := some ⟨1, 1⟩
    base := .valueObject
    members := [ticketSeat, ticketHolder]
    functions := [⟨"Equals_Seat", true, ⟨4, 1⟩⟩, ⟨"GetHashCode_Seat", true, ⟨5, 1⟩⟩,
      ⟨"Equals_Holder", true, ⟨6, 1⟩⟩, ⟨"GetHashCode_Holder", true, ⟨7, 1⟩⟩,
      ⟨"Refund", false, ⟨8, 1⟩⟩] }

def ticketContract : Contract where
  typeName := "Ticket"
  ns := "fair"
  entries := [⟨ticketHolder, .custom none⟩, ⟨ticketSeat, .custom (some 2)⟩]

/-- Functions that look at all of a value; those that hash are bound only if asked for. -/
def ticketCompanions (hashing : Bool) : Companions where
  equals _ := some Node.equal
  hashes _ := if hashing then some fun n => n.hash.toInt64 else none

theorem link_error_ticket :
    let err : LinkError := ⟨"GetHashCode_Holder", "_holder", "fair::Ticket"⟩
    (ticket.check true).contract? = some ticketContract ∧
      (∃ e ∈ ticketContract.entries, e.Lacks (ticketCompanions false)) ∧
      ticketContract.link (ticketCompanions false) = .error err ∧
      err.message =
        utf8 "no callable bound for 'GetHashCode_Holder' (member '_holder' of fair::Ticket)" ∧
      ∃ plan, ticketContract.link (ticketCompanions true) = .ok plan := by
  intro err
  have hcheck : (ticket.check true).contract? = some ticketContract := by decide
  have hlacks : ContractEntry.Lacks (ticketCompanions false) ⟨ticketHolder, .custom none⟩ :=
    ⟨rfl, .inr rfl⟩
  obtain ⟨hcontracts, hmessage, -⟩ := link_error_iff_lacks (ticketCompanions false)
  obtain ⟨-, -, hclass⟩ := link_error_iff_lacks (ticketCompanions true)
  refine ⟨hcheck, ⟨_, List.mem_cons_self, hlacks⟩, ?_, ?_, ?_⟩
  · exact ((hcontracts ticketContract).2 err).2
      ⟨[], _, _, rfl, List.forall_mem_nil _, hlacks, by decide⟩
  · rw [hmessage err (by decide)]
    rfl
  · exact hclass true ticket ticketContract hcheck fun _ _ _ => ⟨rfl, rfl⟩

end Equate
