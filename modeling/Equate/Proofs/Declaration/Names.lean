import Equate.Proofs.Contract.Entries
import Equate.Proofs.Node.Legible
/-!
# The names in declarations

A declaration takes its names from its form as they are written there, as a symbol or as a string:
its own name and namespace from the clauses of the form, those of members and constants from the
clauses of the forms below it. No name is looked at further. What the reader takes for a symbol has
bytes of symbols only; a string can have any.
-/

namespace Equate

/-! ## What a form writes -/

namespace Node

/-- The clauses of a form. -/
def clauses (form : Node) : List Clause := (readClauses form.head form.arguments).1

/-- The name that a form gives for a key; empty if it gives none. -/
def nameFor (key : Bytes) (form : Node) : Bytes := Clause.name key form.clauses

/-- The forms in the vector that is given for a key. -/
def formsFor (key : Bytes) (form : Node) : List Node := (vectorClause key form.clauses).2

end Node

theorem readClauses_fst (head : Bytes) (form : Node) :
    (readClauses head form.arguments).1 = form.clauses := by
  unfold Node.clauses
  generalize form.arguments = xs
  fun_induction readClauses head xs with
  | case4 k v rest key hk clauses stop hrest ih =>
    rw [hrest] at ih
    simp only [readClauses, hk, ← ih]
  | case5 k v rest hk => simp only [readClauses, hk]
  | _ => simp only [readClauses, *]

/-! ## Readings -/

theorem Member.name_of_read {position : Nat} {form : Node} {m : Member}
    (h : (read position form).2 = some m) : m.name = form.nameFor "name" := by
  unfold read at h
  unfold Node.nameFor Node.clauses
  split at h
  · cases h
  · dsimp only at h
    split at h
    · cases h
    · split at h
      · cases h
      · split at h <;> rw [← Option.some.inj (Option.ite_none_right_eq_some.1 h).2]

theorem Member.name_mem_of_readAll {seen : Std.TreeMap Bytes Location} {position : Nat}
    {forms : List Node} {m : Member} (h : m ∈ (readAll seen position forms).2) :
    m.name ∈ forms.map (Node.nameFor "name") := by
  induction forms generalizing seen position with
  | nil => cases h
  | cons form rest ih =>
    rw [List.map_cons, List.mem_cons]
    simp only [readAll] at h
    split at h
    · exact .inr (ih h)
    · rename_i hread
      split at h
      · exact .inr (ih h)
      · rcases List.mem_cons.1 h with rfl | h
        · exact .inl (name_of_read hread)
        · exact .inr (ih h)

/-- Members that are accepted have names of their own, which had not been seen. -/
theorem Member.nodup_name_readAll (seen : Std.TreeMap Bytes Location) (position : Nat)
    (forms : List Node) :
    ((readAll seen position forms).2.map Member.name).Nodup ∧
      ∀ m ∈ (readAll seen position forms).2, seen[m.name]? = none := by
  induction forms generalizing seen position with
  | nil => exact ⟨List.nodup_nil, nofun⟩
  | cons form rest ih =>
    simp only [readAll]
    split
    · exact ih seen position
    · rename_i m _
      split
      · exact ih seen position
      · rename_i hnew
        obtain ⟨hnodup, hunseen⟩ := ih (seen.insert m.name m.location) (position + 1)
        simp only [Std.TreeMap.getElem?_insert] at hunseen
        constructor
        · rw [List.map_cons, List.nodup_cons]
          refine ⟨fun hmem => ?_, hnodup⟩
          obtain ⟨n, hn, hname⟩ := List.mem_map.1 hmem
          have hseen := hunseen n hn
          simp [hname] at hseen
        · rw [List.forall_mem_cons]
          refine ⟨hnew, fun n hn => ?_⟩
          have hseen := hunseen n hn
          split at hseen
          · cases hseen
          · exact hseen

theorem ClassDeclaration.nodup_name_of_read {form : Node} {d : ClassDeclaration}
    (h : (read form).declaration? = some d) : (d.members.map Member.name).Nodup := by
  unfold read at h
  dsimp only at h
  split at h
  · cases h
  · cases h
    exact (Member.nodup_name_readAll {} 0 _).1

theorem ClassDeclaration.names_of_read {form : Node} {d : ClassDeclaration}
    (h : (read form).declaration? = some d) :
    d.name = form.nameFor "name" ∧ d.ns = form.nameFor "namespace" ∧
      ∀ m ∈ d.members, m.name ∈ (form.formsFor "members").map (Node.nameFor "name") := by
  have hclauses := readClauses_fst "class" form
  unfold read at h
  dsimp only at h
  rw [hclauses] at h
  split at h
  · cases h
  · cases h
    exact ⟨rfl, rfl, fun m hm => Member.name_mem_of_readAll hm⟩

theorem ConstantDeclaration.constant_of_read {position : Nat} {form : Node}
    {c : ConstantDeclaration} (h : (read position form).2 = some c) :
    c.constant = form.nameFor "name" := by
  have hclauses := readClauses_fst "constant" form
  unfold read at h
  unfold Node.nameFor
  dsimp only at h
  rw [hclauses] at h
  split at h
  · split at h
    · cases h
    · cases h
      rfl
  · cases h

theorem ConstantDeclaration.constant_mem_of_readAll {position : Nat} {forms : List Node}
    {c : ConstantDeclaration} (h : c ∈ (readAll position forms).2) :
    c.constant ∈ forms.map (Node.nameFor "name") := by
  induction forms generalizing position with
  | nil => cases h
  | cons form rest ih =>
    rw [List.map_cons, List.mem_cons]
    rcases List.mem_append.1 h with h | h
    · exact .inl (constant_of_read (Option.mem_toList.1 h))
    · exact .inr (ih h)

theorem EnumDeclaration.names_of_read {form : Node} {d : EnumDeclaration}
    (h : (read form).declaration? = some d) :
    d.name = form.nameFor "name" ∧ d.ns = form.nameFor "namespace" ∧
      ∀ c ∈ d.constants, c.constant ∈ (form.formsFor "constants").map (Node.nameFor "name") := by
  have hclauses := readClauses_fst "enumeration" form
  unfold read at h
  dsimp only at h
  rw [hclauses] at h
  split at h
  · cases h
  · cases h
    exact ⟨rfl, rfl, fun c hc => ConstantDeclaration.constant_mem_of_readAll hc⟩

theorem Declaration.read_cases {rep : Reporter} {form : Node} {d : Declaration}
    (h : (read rep form).declaration? = some d) :
    (∃ c, d = .classDeclaration c ∧ (ClassDeclaration.read form).declaration? = some c) ∨
      ∃ e, d = .enumeration e ∧ (EnumDeclaration.read form).declaration? = some e := by
  unfold read at h
  split at h
  · rw [Reading.ofPartial_declaration?, Option.map_eq_some_iff] at h
    obtain ⟨c, hc, rfl⟩ := h
    exact .inl ⟨c, rfl, hc⟩
  split at h
  · rw [Reading.ofPartial_declaration?, Option.map_eq_some_iff] at h
    obtain ⟨e, he, rfl⟩ := h
    exact .inr ⟨e, rfl, he⟩
  · cases h

/-! ## Names written as symbols -/

namespace Node

variable {form v : Node} {key : Bytes}

/-- Whether a form gives no string for a key. -/
def GivesNoString (key : Bytes) (form : Node) : Prop :=
  ∀ mark s, Clause.value? key form.clauses ≠ some (.str mark s)

theorem mem_arguments_of_mem_readClauses {head : Bytes} {xs : List Node} {c : Clause}
    (h : c ∈ (readClauses head xs).1) : c.2 ∈ xs := by
  fun_induction readClauses head xs with
  | case4 k v rest key hk clauses stop hrest ih =>
    rw [hrest] at ih
    rcases List.mem_cons.1 h with rfl | h
    · simp
    · simp [ih h]
  | _ => cases h

theorem mem_children_of_mem_arguments (h : v ∈ form.arguments) : v ∈ form.children := by
  cases form with
  | list m xs => exact List.mem_of_mem_drop h
  | _ => cases h

theorem mem_children_of_value? (h : Clause.value? key form.clauses = some v) :
    v ∈ form.children := by
  have hlast : (Clause.values key form.clauses).getLast? = some v := by
    unfold Clause.value? at h
    split at h
    · cases h
    · exact h
  obtain ⟨c, hc, rfl⟩ := List.mem_map.1 (List.mem_of_getLast? hlast)
  apply mem_children_of_mem_arguments
  exact mem_arguments_of_mem_readClauses (List.mem_of_mem_filter hc)

theorem Legible.of_mem_formsFor {f : Node} (h : form.Legible) (hf : f ∈ form.formsFor key) :
    f.Legible := by
  unfold formsFor vectorClause at hf
  split at hf
  · cases hf
  · rename_i v hv
    split at hf
    · rename_i items hitems
      have hvector := h.of_mem_children (mem_children_of_value? hv)
      cases v with
      | vector m xs =>
        cases hitems
        exact hvector.of_mem_children hf
      | _ => cases hitems
    · cases hf

/-- What was written as a symbol has bytes of symbols only. -/
theorem Legible.continuesSymbol_of_mem_nameFor (h : form.Legible) (hkey : form.GivesNoString key) :
    ∀ b ∈ form.nameFor key, continuesSymbol b = true := by
  intro b hb
  unfold nameFor Clause.name at hb
  cases hv : Clause.value? key form.clauses with
  | none =>
    rw [hv] at hb
    cases hb
  | some v =>
    rw [hv] at hb
    have hlegible := h.of_mem_children (mem_children_of_value? hv)
    cases v with
    | symbol mark s => exact hlegible.continues b hb
    | str mark s => exact absurd hv (hkey mark s)
    | _ => cases hb

end Node

end Equate
