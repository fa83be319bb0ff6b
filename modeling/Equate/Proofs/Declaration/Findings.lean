import Equate.Proofs.Declaration.Names
/-!
# What is written and what is found

Behind the head of a form keys and values take turns (`Node.written`). The clauses that are read are
those in front of what breaks the turns, and a break leaves a finding, so without one the clauses
tell all that is written (`values_clauses_eq`). Every finding of a reader points at the form it
reads or at a node in it (`Finding.Within`); only that of a repeated member name has a note.
-/

namespace Equate

/-! ## Written options -/

namespace Node

/-- The values behind `:key` where keys and values take turns, in order. -/
def valuesBehind (key : Bytes) : List Node → List Node
  | k :: v :: rest =>
    if k.keyword? = some key then v :: valuesBehind key rest else valuesBehind key rest
  | _ => []

/-- The values that a form writes for a key, whether they are read or not. -/
def written (key : Bytes) (form : Node) : List Node := valuesBehind key form.arguments

/-- The elements of the last vector written for a key; none if there is no vector. -/
def writtenItems (key : Bytes) (form : Node) : List Node :=
  ((form.written key).filterMap vectorItems?).getLast?.getD []

/-- What ended the walk over the options of a form early. -/
def stop (form : Node) : List Finding := (readClauses form.head form.arguments).2

variable {form v : Node} {key : Bytes}

theorem mem_of_mem_valuesBehind {xs : List Node} (h : v ∈ valuesBehind key xs) : v ∈ xs := by
  fun_induction valuesBehind key xs with
  | case1 k w rest hk ih =>
    rcases List.mem_cons.1 h with rfl | h
    · simp
    · simp [ih h]
  | case2 k w rest hk ih => simp [ih h]
  | case3 => cases h

theorem mem_children_of_mem_written (h : v ∈ form.written key) : v ∈ form.children :=
  mem_children_of_mem_arguments (mem_of_mem_valuesBehind h)

end Node

/-- The values of the clauses are the first ones that are written; without a break they are all. -/
theorem values_readClauses (head key : Bytes) (xs : List Node) :
    Clause.values key (readClauses head xs).1 <+: Node.valuesBehind key xs ∧
      ((readClauses head xs).2 = [] →
        Clause.values key (readClauses head xs).1 = Node.valuesBehind key xs) := by
  fun_induction readClauses head xs with
  | case4 k v rest key' hk clauses stop hrest ih =>
    rw [hrest] at ih
    obtain ⟨hfront, hall⟩ := ih
    simp only [Node.valuesBehind, hk, Clause.values, List.filter_cons, Option.some.injEq,
      beq_iff_eq]
    split
    · exact ⟨(List.prefix_cons_inj _).2 hfront, fun h => congrArg _ (hall h)⟩
    · exact ⟨hfront, hall⟩
  | case1 | case2 | case3 => exact ⟨List.nil_prefix, fun _ => rfl⟩
  | case5 => exact ⟨List.nil_prefix, fun h => absurd h (List.cons_ne_nil _ _)⟩

namespace Node

variable {form v : Node} {key : Bytes}

theorem mem_written_of_value? (h : Clause.value? key form.clauses = some v) :
    v ∈ form.written key := by
  have hlast : (Clause.values key form.clauses).getLast? = some v := by
    unfold Clause.value? at h
    split at h
    · cases h
    · exact h
  exact (values_readClauses form.head key form.arguments).1.subset (List.mem_of_getLast? hlast)

theorem values_clauses_eq (hstop : form.stop = []) :
    Clause.values key form.clauses = form.written key :=
  (values_readClauses form.head key form.arguments).2 hstop

/-- Where nothing is absent, the last value that is written counts. -/
theorem value?_clauses_eq (hlegible : form.Legible) (hstop : form.stop = []) :
    Clause.value? key form.clauses = (form.written key).getLast? := by
  unfold Clause.value?
  rw [values_clauses_eq hstop]
  split
  · rename_i hlast
    have habsent := hlegible.of_mem_children
      (mem_children_of_mem_written (List.mem_of_getLast? hlast))
    cases habsent
  · rfl

/-- The forms that are read for a key are the elements of the last vector that is written for it,
unless a finding tells that the options break off or that the last value is no vector. -/
theorem formsFor_eq_writtenItems (hlegible : form.Legible) (hstop : form.stop = [])
    (hvector : (vectorClause key form.clauses).1 = []) :
    form.formsFor key = form.writtenItems key := by
  have hlast : Clause.value? key form.clauses = (form.written key).getLast? :=
    value?_clauses_eq hlegible hstop
  unfold formsFor writtenItems
  unfold vectorClause at hvector ⊢
  split
  · rename_i hnone
    rw [hnone, eq_comm, List.getLast?_eq_none_iff] at hlast
    rw [hlast]
    rfl
  · rename_i w hw
    rw [hw] at hvector hlast
    obtain ⟨front, hwritten⟩ := List.getLast?_eq_some_iff.1 hlast.symm
    cases hitems : w.vectorItems? with
    | none => simp [hitems] at hvector
    | some items => simp [hwritten, hitems]

end Node

/-! ## Findings -/

/-- Whether a finding points at a node in `form`, and only there. -/
structure Finding.Within (form : Node) (f : Finding) : Prop where
  location : ∃ n, Node.Occurs n form ∧ f.location = n.location
  notes : f.notes = []
  fault : ∀ name, f.fault ≠ .duplicateMember name

namespace Finding.Within

variable {form x : Node} {f : Finding}

theorem of_mem_children (hx : x ∈ form.children) (h : f.Within x) : f.Within form :=
  ⟨h.location.imp fun _ hn => ⟨.child hx hn.1, hn.2⟩, h.notes, h.fault⟩

/-- A finding about the form itself. -/
theorem self {fault : Malformation} (h : ∀ name, fault ≠ .duplicateMember name) :
    Within form ⟨fault, form.location, []⟩ :=
  ⟨⟨form, .self form, rfl⟩, rfl, h⟩

theorem child {fault : Malformation} (hx : x ∈ form.children)
    (h : ∀ name, fault ≠ .duplicateMember name) : Within form ⟨fault, x.location, []⟩ :=
  .of_mem_children hx (.self h)

end Finding.Within

variable {form : Node} {f : Finding} {key : Bytes}

/-- The walk over the options of a form breaks at one of its parts. -/
theorem exists_mem_of_mem_stop {head : Bytes} {xs : List Node} (h : f ∈ (readClauses head xs).2) :
    ∃ k ∈ xs, ∃ fault : Malformation, f = ⟨fault, k.location, []⟩ ∧
      ∀ name, fault ≠ .duplicateMember name := by
  fun_induction readClauses head xs with
  | case1 => cases h
  | case2 k key hk | case3 k hk | case5 k v rest hk =>
    obtain rfl := List.mem_singleton.1 h
    refine ⟨k, by simp, _, rfl, fun name h => ?_⟩
    cases h
  | case4 k v rest key hk clauses stop hrest ih =>
    rw [hrest] at ih
    obtain ⟨k', hk', hfault⟩ := ih h
    exact ⟨k', by simp [hk'], hfault⟩

theorem within_of_mem_stop {head : Bytes} (h : f ∈ (readClauses head form.arguments).2) :
    f.Within form := by
  obtain ⟨k, hk, fault, rfl, hfault⟩ := exists_mem_of_mem_stop h
  exact .child (Node.mem_children_of_mem_arguments hk) hfault

theorem mem_children_of_mem_clauses {c : Clause} (h : c ∈ form.clauses) : c.2 ∈ form.children :=
  Node.mem_children_of_mem_arguments (Node.mem_arguments_of_mem_readClauses h)

theorem within_of_mem_booleanFindings {keys : List Bytes}
    (h : f ∈ Clause.booleanFindings keys form.clauses) : f.Within form := by
  obtain ⟨c, hc, h⟩ := List.mem_filterMap.1 h
  obtain ⟨-, h⟩ := Option.ite_none_right_eq_some.1 h
  cases h
  exact .child (mem_children_of_mem_clauses hc) nofun

theorem exists_written_of_mem_vectorClause (h : f ∈ (vectorClause key form.clauses).1) :
    ∃ v ∈ form.written key, v.vectorItems? = none ∧ f = ⟨.notAVector key, v.location, []⟩ := by
  unfold vectorClause at h
  split at h
  · cases h
  · rename_i v hv
    split at h
    · cases h
    · rename_i hitems
      exact ⟨v, Node.mem_written_of_value? hv, hitems, List.mem_singleton.1 h⟩

theorem within_of_mem_vectorClause (h : f ∈ (vectorClause key form.clauses).1) :
    f.Within form := by
  obtain ⟨v, hv, -, rfl⟩ := exists_written_of_mem_vectorClause h
  exact .child (Node.mem_children_of_mem_written hv) nofun

/-- An element of the last vector that is written for a key is read, unless the options break off or
the last value for the key is no vector. -/
theorem Node.mem_formsFor_or_exists_finding {x : Node} (hlegible : form.Legible)
    (hx : x ∈ form.writtenItems key) :
    x ∈ form.formsFor key ∨ (∃ f, f ∈ form.stop) ∨
      ∃ f ∈ (vectorClause key form.clauses).1, ∃ v ∈ form.written key,
        v.vectorItems? = none ∧ f.location = v.location := by
  cases hstop : form.stop with
  | cons f fs => exact .inr (.inl ⟨f, List.mem_cons_self⟩)
  | nil =>
    cases hvector : (vectorClause key form.clauses).1 with
    | nil => exact .inl (formsFor_eq_writtenItems hlegible hstop hvector ▸ hx)
    | cons f fs =>
      have hf : f ∈ (vectorClause key form.clauses).1 := hvector ▸ List.mem_cons_self
      obtain ⟨v, hv, hitems, rfl⟩ := exists_written_of_mem_vectorClause hf
      exact .inr (.inr ⟨_, List.mem_cons_self, v, hv, hitems, rfl⟩)

theorem within_of_mem_readBase (h : f ∈ (ClassBase.read form.clauses).1) : f.Within form := by
  unfold ClassBase.read at h
  split at h
  · cases h
  · rename_i v hv
    have hinvalid {fault : Malformation} (h : f ∈ [⟨fault, v.location, []⟩])
        (hfault : ∀ name, fault ≠ .duplicateMember name) : f.Within form := by
      obtain rfl := List.mem_singleton.1 h
      exact .child (Node.mem_children_of_value? hv) hfault
    split at h
    · cases h
    split at h
    · split at h
      · split at h
        · cases h
        · exact hinvalid h nofun
      · exact hinvalid h nofun
    · split at h
      · exact hinvalid h nofun
      · cases h

/-! ## Functions and constants -/

namespace CompanionFunction

theorem read_eq (form : Node) :
    read form = if form.head = utf8 "fn" then
        if form.nameFor "name" = [] then
          (Clause.booleanFindings ["static"] form.clauses ++ form.stop ++
            [⟨.missingFunctionName, form.location, []⟩], none)
        else (Clause.booleanFindings ["static"] form.clauses ++ form.stop,
          some ⟨form.nameFor "name", Clause.boolean "static" true form.clauses, form.location⟩)
      else ([⟨.notAFunction, form.location, []⟩], none) := by
  unfold read
  split
  · rename_i hhead
    rw [← hhead]
    simp only [List.isEmpty_iff]
    rfl
  · rfl

theorem within_of_mem_read (h : f ∈ (read form).1) : f.Within form := by
  have hoptions (h : f ∈ Clause.booleanFindings ["static"] form.clauses ++ form.stop) :
      f.Within form :=
    (List.mem_append.1 h).elim within_of_mem_booleanFindings within_of_mem_stop
  rw [read_eq] at h
  split at h
  · split at h
    · rcases List.mem_append.1 h with h | h
      · exact hoptions h
      · obtain rfl := List.mem_singleton.1 h
        exact .self nofun
    · exact hoptions h
  · obtain rfl := List.mem_singleton.1 h
    exact .self nofun

end CompanionFunction

namespace ConstantDeclaration

theorem read_eq (position : Nat) (form : Node) :
    read position form = if form.head = utf8 "constant" then
        if form.nameFor "name" = [] then
          (form.stop ++ [⟨.missingConstantName, form.location, []⟩], none)
        else (form.stop, some
          { constant := form.nameFor "name"
            literal? := (Clause.value? "args" form.clauses).bind readLiteral?
            position
            location := form.location })
      else ([⟨.notAConstant, form.location, []⟩], none) := by
  unfold read
  split
  · rename_i hhead
    rw [← hhead]
    simp only [List.isEmpty_iff]
    rfl
  · rfl

theorem within_of_mem_read {position : Nat} (h : f ∈ (read position form).1) : f.Within form := by
  rw [read_eq] at h
  split at h
  · split at h
    · rcases List.mem_append.1 h with h | h
      · exact within_of_mem_stop h
      · obtain rfl := List.mem_singleton.1 h
        exact .self nofun
    · exact within_of_mem_stop h
  · obtain rfl := List.mem_singleton.1 h
    exact .self nofun

end ConstantDeclaration

end Equate
