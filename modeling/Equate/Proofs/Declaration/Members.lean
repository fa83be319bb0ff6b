import Equate.Proofs.Declaration.Findings
/-!
# Reading members

How a form is read as a member is told by `Member.ReadAs`, case by case, and how a list of forms is
by `Member.AllReadAs`. What is left out leaves a finding in its form. The members come from some of
the forms, in their order (`Member.AllReadAs.exists_sublist`), and a repeated name is reported with
a note on the member that has it (`Member.AllReadAs.finding_cases`).
-/

namespace Equate

/-- Where every form is read, the readings are those of all forms in their order. -/
theorem forall₂_filterMap {α : Type} {read? : Node → Option α} {R : Node → α → Prop}
    {forms : List Node} (h : ∀ form ∈ forms, ∃ a, read? form = some a ∧ R form a) :
    List.Forall₂ R forms (forms.filterMap read?) := by
  induction forms with
  | nil => exact .nil
  | cons form forms ih =>
    obtain ⟨⟨a, ha, hform⟩, hforms⟩ := List.forall_mem_cons.1 h
    rw [List.filterMap_cons_some ha]
    exact .cons hform (ih hforms)

/-! ## Strategies -/

/-- The strategy forms that a value of `:equality` holds: one form, or the elements of a vector. -/
def Node.strategyForms : Node → List Node
  | .list m xs => [.list m xs]
  | .vector _ items => items
  | _ => []

namespace PlacedStrategy

/-- Whether a strategy is what a form is read as. -/
structure ReadFrom (form : Node) (a : PlacedStrategy) : Prop where
  strategy : Strategy.ofNode form = .ok a.strategy
  location : a.location = form.location

def ofNode? (form : Node) : Option PlacedStrategy :=
  match Strategy.ofNode form with
  | .ok strategy => some ⟨strategy, form.location⟩
  | .error _ => none

def finding? (form : Node) : Option Finding :=
  match Strategy.ofNode form with
  | .ok _ => none
  | .error fault => some ⟨.invalidStrategy fault, form.location, []⟩

/-- A form is a strategy or leaves a finding. -/
theorem cases_ofNode (form : Node) :
    (∃ a, ofNode? form = some a ∧ finding? form = none ∧ ReadFrom form a) ∨
      ∃ fault, ofNode? form = none ∧
        finding? form = some ⟨.invalidStrategy fault, form.location, []⟩ := by
  unfold ofNode? finding?
  cases h : Strategy.ofNode form with
  | ok strategy => exact .inl ⟨_, rfl, rfl, h, rfl⟩
  | error fault => exact .inr ⟨fault, rfl, rfl⟩

variable {member : Bytes} {value : Node}

theorem readAll_cases (member : Bytes) (value : Node) :
    readAll member value =
        (value.strategyForms.filterMap finding?, value.strategyForms.filterMap ofNode?) ∨
      value.strategyForms = [] ∧
        readAll member value = ([⟨.invalidEquality member, value.location, []⟩], []) := by
  cases value with
  | list | vector => exact .inl rfl
  | _ => exact .inr ⟨rfl, rfl⟩

theorem within_of_mem_readAll {f : Finding} (h : f ∈ (readAll member value).1) :
    f.Within value := by
  rcases readAll_cases member value with heq | ⟨-, heq⟩
  · rw [heq] at h
    obtain ⟨form, hform, hf⟩ := List.mem_filterMap.1 h
    rcases cases_ofNode form with ⟨-, -, hnone, -⟩ | ⟨fault, -, hfault⟩
    · rw [hnone] at hf
      cases hf
    · rw [hfault, Option.some.injEq] at hf
      subst hf
      -- a form is the value itself or one of the elements
      cases value with
      | list m xs =>
        obtain rfl := List.mem_singleton.1 hform
        exact .self nofun
      | vector m items => exact .child hform nofun
      | _ => cases hform
  · rw [heq] at h
    obtain rfl := List.mem_singleton.1 h
    exact .self nofun

/-- Every strategy form is read or leaves a finding. -/
theorem exists_of_mem_strategyForms {form : Node} (h : form ∈ value.strategyForms) :
    (∃ a ∈ (readAll member value).2, ReadFrom form a) ∨
      ∃ f ∈ (readAll member value).1, f.location = form.location := by
  rcases readAll_cases member value with heq | ⟨hnil, -⟩
  · rw [heq]
    rcases cases_ofNode form with ⟨a, ha, -, hread⟩ | ⟨fault, -, hfault⟩
    · exact .inl ⟨a, List.mem_filterMap.2 ⟨form, h, ha⟩, hread⟩
    · exact .inr ⟨_, List.mem_filterMap.2 ⟨form, h, hfault⟩, rfl⟩
  · rw [hnil] at h
    cases h

/-- Without findings all strategy forms are read. -/
theorem forall₂_readAll (h : (readAll member value).1 = []) :
    List.Forall₂ ReadFrom value.strategyForms (readAll member value).2 := by
  rcases readAll_cases member value with heq | ⟨-, heq⟩
  · rw [heq] at h ⊢
    refine forall₂_filterMap fun form hform => ?_
    rcases cases_ofNode form with ⟨a, ha, -, hread⟩ | ⟨fault, -, hfault⟩
    · exact ⟨a, ha, hread⟩
    · rw [List.filterMap_eq_nil_iff.1 h form hform] at hfault
      cases hfault
  · rw [heq] at h
    cases h

end PlacedStrategy

/-! ## One member -/

namespace Member

/-- The clauses of a member that cannot be used. -/
def faults (form : Node) : List Finding := form.clauses.filterMap memberClauseFinding?

/-- The strategies that a member form gives, with what is wrong with them. -/
def strategyReading (form : Node) : List Finding × List PlacedStrategy :=
  match Clause.value? "equality" form.clauses with
  | some v => PlacedStrategy.readAll (form.nameFor "name") v
  | none => ([], [])

/-- The member that a form tells of, once its kind and its type are known. -/
def ofForm (position : Nat) (form : Node) (kind : MemberKind) (type : TypeForm) : Member :=
  { name := form.nameFor "name", kind, type, position
    readonly := Clause.boolean "readonly" false form.clauses
    setter := ((Clause.values "setter" form.clauses).filterMap fun v =>
      Setter.ofName? v.name).getLast?.getD .none
    computed := Clause.boolean "computed" false form.clauses
    isStatic := Clause.boolean "static" false form.clauses
    strategies := (strategyReading form).2
    location := form.location }

/-- What a form is read as: findings, and a member if there is one. -/
inductive ReadAs (position : Nat) (form : Node) : List Finding × Option Member → Prop where
  | notAMember (hkind : MemberKind.ofName? form.head = none) :
      ReadAs position form ([⟨.notAMember form, form.location, []⟩], none)
  | nameless {kind : MemberKind} (hkind : MemberKind.ofName? form.head = some kind)
      (hname : form.nameFor "name" = []) :
      ReadAs position form
        (faults form ++ form.stop ++ [⟨.missingMemberName kind.name, form.location, []⟩], none)
  | untyped {kind : MemberKind} {f : Finding} (hkind : MemberKind.ofName? form.head = some kind)
      (htype : readType form kind (form.nameFor "name") form.clauses = .error f) :
      ReadAs position form (faults form ++ form.stop ++ [f], none)
  | faulty (hfaults : faults form ≠ []) :
      ReadAs position form (faults form ++ form.stop ++ (strategyReading form).1, none)
  | member {kind : MemberKind} {type : TypeForm}
      (hkind : MemberKind.ofName? form.head = some kind) (hname : form.nameFor "name" ≠ [])
      (htype : readType form kind (form.nameFor "name") form.clauses = .ok type)
      (hfaults : faults form = []) :
      ReadAs position form
        (form.stop ++ (strategyReading form).1, some (ofForm position form kind type))

theorem readAs_read (position : Nat) (form : Node) : ReadAs position form (read position form) := by
  unfold read
  split
  · rename_i hkind
    exact .notAMember hkind
  · rename_i kind hkind
    dsimp only
    split
    · rename_i hname
      exact .nameless hkind (List.isEmpty_iff.1 hname)
    · rename_i hname
      split
      · rename_i f htype
        exact .untyped hkind htype
      · rename_i type htype
        show ReadAs position form (faults form ++ form.stop ++ (strategyReading form).1,
          if (faults form).isEmpty then some (ofForm position form kind type) else none)
        split
        · rename_i hfaults
          rw [List.isEmpty_iff.1 hfaults]
          exact .member hkind (fun h => hname (List.isEmpty_iff.2 h)) htype
            (List.isEmpty_iff.1 hfaults)
        · rename_i hfaults
          exact .faulty fun h => hfaults (List.isEmpty_iff.2 h)

variable {position : Nat} {form : Node} {m : Member} {f : Finding}

/-- Whether a member is what a form is read as, wherever it stands among the members. -/
structure ReadFrom (form : Node) (m : Member) : Prop where
  location : m.location = form.location
  kind : m.kind.name = form.head
  name : m.name = form.nameFor "name"
  name_ne_nil : m.name ≠ []
  /-- Only a method can do without a type of its own. -/
  type : (∃ v, Clause.value? "type" form.clauses = some v ∧ TypeForm.ofNode? v = some m.type) ∨
    m.kind = .method ∧ m.type = .named []

theorem within_of_readType_eq_error {kind : MemberKind} {name : Bytes}
    (h : readType form kind name form.clauses = .error f) : f.Within form := by
  unfold readType at h
  split at h
  · rename_i v hv
    split at h
    · cases h
    · cases h
      exact .child (Node.mem_children_of_value? hv) nofun
  · split at h
    · cases h
    · cases h
      exact .self nofun

theorem type_of_readType_eq_ok {kind : MemberKind} {name : Bytes} {type : TypeForm}
    (h : readType form kind name form.clauses = .ok type) :
    (∃ v, Clause.value? "type" form.clauses = some v ∧ TypeForm.ofNode? v = some type) ∨
      kind = .method ∧ type = .named [] := by
  unfold readType at h
  split at h
  · rename_i v hv
    split at h
    · rename_i htype
      cases h
      exact .inl ⟨v, hv, htype⟩
    · cases h
  · split at h
    · rename_i hkind
      cases h
      exact .inr ⟨hkind, rfl⟩
    · cases h

theorem within_of_mem_faults (h : f ∈ faults form) : f.Within form := by
  obtain ⟨c, hc, h⟩ := List.mem_filterMap.1 h
  have hchild := mem_children_of_mem_clauses hc
  unfold memberClauseFinding? at h
  dsimp only at h
  split at h
  · obtain ⟨-, h⟩ := Option.ite_none_right_eq_some.1 h
    cases h
    exact .child hchild nofun
  · split at h
    · obtain ⟨-, h⟩ := Option.ite_none_right_eq_some.1 h
      cases h
      exact .child hchild nofun
    · cases h

theorem within_of_mem_strategyReading (h : f ∈ (strategyReading form).1) : f.Within form := by
  unfold strategyReading at h
  split at h
  · rename_i v hv
    exact .of_mem_children (Node.mem_children_of_value? hv) (PlacedStrategy.within_of_mem_readAll h)
  · cases h

/-- What is found in a member form points into it. -/
theorem within_of_mem_read (h : f ∈ (read position form).1) : f.Within form := by
  have hoptions (h : f ∈ faults form ++ form.stop) : f.Within form :=
    (List.mem_append.1 h).elim within_of_mem_faults within_of_mem_stop
  have hread := readAs_read position form
  generalize read position form = reading at h hread
  cases hread with
  | notAMember =>
    obtain rfl := List.mem_singleton.1 h
    exact .self nofun
  | nameless =>
    rcases List.mem_append.1 h with h | h
    · exact hoptions h
    · obtain rfl := List.mem_singleton.1 h
      exact .self nofun
  | untyped _ htype =>
    rcases List.mem_append.1 h with h | h
    · exact hoptions h
    · obtain rfl := List.mem_singleton.1 h
      exact within_of_readType_eq_error htype
  | faulty => exact (List.mem_append.1 h).elim hoptions within_of_mem_strategyReading
  | member =>
    exact (List.mem_append.1 h).elim within_of_mem_stop within_of_mem_strategyReading

/-- A form that gives no member leaves a finding. -/
theorem findings_ne_nil (h : (read position form).2 = none) : (read position form).1 ≠ [] := by
  have hread := readAs_read position form
  generalize read position form = reading at h hread
  cases hread with
  | notAMember | nameless | untyped => simp
  | faulty hfaults => simp [hfaults]
  | member => cases h

/-- Where a member would stand makes no difference to whether a form is one. -/
theorem read_position (p q : Nat) (form : Node) :
    read q form =
      ((read p form).1, (read p form).2.map fun m => { m with position := q }) := by
  unfold read
  split
  · rfl
  · dsimp only
    split
    · rfl
    · split
      · rfl
      · split <;> simp

theorem readFrom_of_read (h : (read position form).2 = some m) : ReadFrom form m := by
  have hread := readAs_read position form
  generalize read position form = reading at h hread
  cases hread with
  | notAMember | nameless | untyped | faulty => cases h
  | member hkind hname htype =>
    cases h
    have hhead := List.find?_some hkind
    exact ⟨rfl, beq_iff_eq.1 hhead, rfl, hname, type_of_readType_eq_ok htype⟩

/-- A member has the strategies that are read from its form, and reports what is wrong there. -/
theorem strategies_of_read (h : (read position form).2 = some m) :
    m.strategies = (strategyReading form).2 ∧
      (read position form).1 = form.stop ++ (strategyReading form).1 := by
  have hread := readAs_read position form
  generalize read position form = reading at h hread
  cases hread with
  | notAMember | nameless | untyped | faulty => cases h
  | member =>
    cases h
    exact ⟨rfl, rfl⟩

/-- When a form is read as a member without any findings. -/
theorem read_eq_nil_some_iff :
    read position form = ([], some m) ↔ ∃ kind type, MemberKind.ofName? form.head = some kind ∧
      form.nameFor "name" ≠ [] ∧ readType form kind (form.nameFor "name") form.clauses = .ok type ∧
      faults form = [] ∧ form.stop = [] ∧ (strategyReading form).1 = [] ∧
      m = ofForm position form kind type := by
  have hread := readAs_read position form
  generalize read position form = reading at hread
  constructor
  · intro h
    cases hread with
    | notAMember | nameless | untyped | faulty => cases congrArg Prod.snd h
    | @member kind type hkind hname htype hfaults =>
      obtain ⟨hstop, hstrategies⟩ := List.append_eq_nil_iff.1 (congrArg Prod.fst h)
      cases congrArg Prod.snd h
      exact ⟨kind, type, hkind, hname, htype, hfaults, hstop, hstrategies, rfl⟩
  · rintro ⟨kind, type, hkind, hname, htype, hfaults, hstop, hstrategies, rfl⟩
    cases hread with
    | notAMember h => cases h.symm.trans hkind
    | nameless _ h => exact absurd h hname
    | untyped h h' =>
      cases h.symm.trans hkind
      cases h'.symm.trans htype
    | faulty h => exact absurd hfaults h
    | member h _ h' =>
      cases h.symm.trans hkind
      cases h'.symm.trans htype
      rw [hstop, hstrategies]
      rfl

/-! ## All members of a class -/

/-- What is found if the name of a member is that of one at `first`. -/
def repetition (m : Member) (first : Location) : Finding :=
  ⟨.duplicateMember m.name, m.location, [⟨"first declared here", first⟩]⟩

/-- What forms are read as, one after the other. -/
inductive AllReadAs : Std.TreeMap Bytes Location → Nat → List Node → List Finding → List Member →
    Prop where
  | nil {seen : Std.TreeMap Bytes Location} {position : Nat} : AllReadAs seen position [] [] []
  | dropped {seen : Std.TreeMap Bytes Location} {position : Nat} {form : Node} {rest : List Node}
      {findings : List Finding} {members : List Member} (hread : (read position form).2 = none)
      (hrest : AllReadAs seen position rest findings members) :
      AllReadAs seen position (form :: rest) ((read position form).1 ++ findings) members
  | repeated {seen : Std.TreeMap Bytes Location} {position : Nat} {form : Node} {rest : List Node}
      {findings : List Finding} {members : List Member} {m : Member} {first : Location}
      (hread : (read position form).2 = some m) (hseen : seen[m.name]? = some first)
      (hrest : AllReadAs seen position rest findings members) :
      AllReadAs seen position (form :: rest)
        ((read position form).1 ++ m.repetition first :: findings) members
  | kept {seen : Std.TreeMap Bytes Location} {position : Nat} {form : Node} {rest : List Node}
      {findings : List Finding} {members : List Member} {m : Member}
      (hread : (read position form).2 = some m) (hseen : seen[m.name]? = none)
      (hrest : AllReadAs (seen.insert m.name m.location) (position + 1) rest findings members) :
      AllReadAs seen position (form :: rest) ((read position form).1 ++ findings) (m :: members)

theorem allReadAs_readAll (seen : Std.TreeMap Bytes Location) (position : Nat)
    (forms : List Node) :
    AllReadAs seen position forms (readAll seen position forms).1
      (readAll seen position forms).2 := by
  induction forms generalizing seen position with
  | nil => exact .nil
  | cons form rest ih =>
    unfold readAll
    dsimp only
    split
    · rename_i hread
      exact .dropped hread (ih seen position)
    · rename_i m hread
      split
      · rename_i first hseen
        exact .repeated hread hseen (ih seen position)
      · rename_i hseen
        exact .kept hread hseen (ih _ _)

namespace AllReadAs

variable {seen : Std.TreeMap Bytes Location} {forms : List Node} {findings : List Finding}
  {members : List Member}

/-- The members come from some of the forms, in their order. -/
theorem exists_sublist (h : AllReadAs seen position forms findings members) :
    ∃ kept, kept.Sublist forms ∧ List.Forall₂ ReadFrom kept members := by
  induction h with
  | nil => exact ⟨[], .slnil, .nil⟩
  | dropped _ _ ih | repeated _ _ _ ih =>
    obtain ⟨kept, hkept, hmembers⟩ := ih
    exact ⟨kept, hkept.cons _, hmembers⟩
  | kept hread _ _ ih =>
    obtain ⟨kept, hkept, hmembers⟩ := ih
    exact ⟨_, hkept.cons_cons _, .cons (readFrom_of_read hread) hmembers⟩

/-- Every form is kept as a member, and what is found there is reported, or a finding points into
it. -/
theorem kept_or_exists_finding (h : AllReadAs seen position forms findings members)
    {form : Node} (hform : form ∈ forms) :
    (∃ m ∈ members, ∃ p, (read p form).2 = some m ∧ (read p form).1 ⊆ findings) ∨
      ∃ f ∈ findings, ∃ n, Node.Occurs n form ∧ f.location = n.location := by
  induction h with
  | nil => cases hform
  | @dropped _ p x _ _ _ hread _ ih =>
    rcases List.mem_cons.1 hform with rfl | hform
    · obtain ⟨f, hf⟩ := List.exists_mem_of_ne_nil _ (findings_ne_nil hread)
      exact .inr ⟨f, List.mem_append_left _ hf, (within_of_mem_read hf).location⟩
    · rcases ih hform with ⟨m, hm, p', hread', hsubset⟩ | ⟨f, hf, hlocation⟩
      · exact .inl ⟨m, hm, p', hread', List.subset_append_of_subset_right _ hsubset⟩
      · exact .inr ⟨f, List.mem_append_right _ hf, hlocation⟩
  | @repeated _ p x _ _ _ m first hread _ _ ih =>
    rcases List.mem_cons.1 hform with rfl | hform
    · exact .inr ⟨m.repetition first, by simp, form, .self form, (readFrom_of_read hread).location⟩
    · rcases ih hform with ⟨m, hm, p', hread', hsubset⟩ | ⟨f, hf, hlocation⟩
      · exact .inl ⟨m, hm, p', hread', fun f hf => by simp [hsubset hf]⟩
      · exact .inr ⟨f, by simp [hf], hlocation⟩
  | @kept _ p x _ _ _ m hread _ _ ih =>
    rcases List.mem_cons.1 hform with rfl | hform
    · exact .inl ⟨m, List.mem_cons_self, p, hread, List.subset_append_left _ _⟩
    · rcases ih hform with ⟨m', hm', p', hread', hsubset⟩ | ⟨f, hf, hlocation⟩
      · exact .inl ⟨m', List.mem_cons_of_mem _ hm', p', hread',
          List.subset_append_of_subset_right _ hsubset⟩
      · exact .inr ⟨f, List.mem_append_right _ hf, hlocation⟩

/-- Without findings every form is kept. -/
theorem forall₂_of_nil (h : AllReadAs seen position forms findings members)
    (hnil : findings = []) :
    List.Forall₂ (fun form m => ∃ p, read p form = ([], some m)) forms members := by
  induction h with
  | nil => exact .nil
  | dropped hread => exact absurd (List.append_eq_nil_iff.1 hnil).1 (findings_ne_nil hread)
  | repeated => cases (List.append_eq_nil_iff.1 hnil).2
  | kept hread _ _ ih =>
    obtain ⟨hfound, hnil⟩ := List.append_eq_nil_iff.1 hnil
    exact .cons ⟨_, Prod.ext hfound hread⟩ (ih hnil)

/-- A finding points into one of the forms, or it tells of a repeated name, with a note on the
member that has it. -/
theorem finding_cases (h : AllReadAs seen position forms findings members) (hf : f ∈ findings) :
    (∃ form ∈ forms, f.Within form) ∨
      ∃ form ∈ forms, ∃ m, ReadFrom form m ∧ ∃ first, f = m.repetition first ∧
        (seen[m.name]? = some first ∨ ∃ m' ∈ members, m'.name = m.name ∧ m'.location = first) := by
  induction h with
  | nil => cases hf
  | @dropped _ p x _ _ _ _ _ ih =>
    rcases List.mem_append.1 hf with hf | hf
    · exact .inl ⟨x, List.mem_cons_self, within_of_mem_read hf⟩
    · exact (ih hf).imp (.imp fun _ h => ⟨List.mem_cons_of_mem _ h.1, h.2⟩)
        (.imp fun _ h => ⟨List.mem_cons_of_mem _ h.1, h.2⟩)
  | @repeated _ p x _ _ _ m first hread hseen _ ih =>
    rcases List.mem_append.1 hf with hf | hf
    · exact .inl ⟨x, List.mem_cons_self, within_of_mem_read hf⟩
    rcases List.mem_cons.1 hf with rfl | hf
    · exact .inr ⟨x, List.mem_cons_self, m, readFrom_of_read hread, first, rfl, .inl hseen⟩
    · exact (ih hf).imp (.imp fun _ h => ⟨List.mem_cons_of_mem _ h.1, h.2⟩)
        (.imp fun _ h => ⟨List.mem_cons_of_mem _ h.1, h.2⟩)
  | @kept _ p x _ _ _ m hread hseen _ ih =>
    rcases List.mem_append.1 hf with hf | hf
    · exact .inl ⟨x, List.mem_cons_self, within_of_mem_read hf⟩
    rcases ih hf with ⟨form, hform, h⟩ | ⟨form, hform, m', hm', first, rfl, hfirst⟩
    · exact .inl ⟨form, List.mem_cons_of_mem _ hform, h⟩
    · refine .inr ⟨form, List.mem_cons_of_mem _ hform, m', hm', first, rfl, ?_⟩
      rw [Std.TreeMap.getElem?_insert] at hfirst
      rcases hfirst with hfirst | ⟨n, hn, hname, hlocation⟩
      · split at hfirst
        -- the name is that of the member that was just kept
        · rename_i hname
          exact .inr ⟨m, List.mem_cons_self, by simpa using hname, Option.some.inj hfirst⟩
        · exact .inl hfirst
      · exact .inr ⟨n, List.mem_cons_of_mem _ hn, hname, hlocation⟩

/-- A member is the first of its name: no form in front of its own is read as a member that has the
name. -/
theorem exists_front (h : AllReadAs seen position forms findings members) (hm : m ∈ members) :
    seen[m.name]? = none ∧ ∃ front form behind, forms = front ++ form :: behind ∧
      ReadFrom form m ∧ ∀ x ∈ front, ∀ p n, (read p x).2 = some n → n.name ≠ m.name := by
  induction h with
  | nil => cases hm
  | @dropped _ p x _ _ _ hread _ ih =>
    obtain ⟨hunseen, front, form, behind, rfl, hfrom, hfront⟩ := ih hm
    refine ⟨hunseen, x :: front, form, behind, rfl, hfrom, List.forall_mem_cons.2 ⟨?_, hfront⟩⟩
    intro q n hn
    rw [read_position p q, hread] at hn
    cases hn
  | @repeated _ p x _ _ _ m' first hread hseen _ ih =>
    obtain ⟨hunseen, front, form, behind, rfl, hfrom, hfront⟩ := ih hm
    refine ⟨hunseen, x :: front, form, behind, rfl, hfrom, List.forall_mem_cons.2 ⟨?_, hfront⟩⟩
    intro q n hn hname
    rw [read_position p q, hread] at hn
    cases hn
    rw [← hname, hseen] at hunseen
    cases hunseen
  | @kept _ p x _ _ _ m' hread hnew _ ih =>
    rcases List.mem_cons.1 hm with rfl | hm
    · exact ⟨hnew, [], x, _, rfl, readFrom_of_read hread, List.forall_mem_nil _⟩
    · obtain ⟨hunseen, front, form, behind, rfl, hfrom, hfront⟩ := ih hm
      rw [Std.TreeMap.getElem?_insert] at hunseen
      split at hunseen
      · cases hunseen
      · rename_i hne
        refine ⟨hunseen, x :: front, form, behind, rfl, hfrom,
          List.forall_mem_cons.2 ⟨?_, hfront⟩⟩
        intro q n hn hname
        rw [read_position p q, hread] at hn
        cases hn
        exact hne (by simpa using hname)

end AllReadAs

end Member

end Equate
