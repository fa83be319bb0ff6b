import Equate.Proofs.Declaration.Relocation
/-!
# Reading sketches

A sketch of a node has its shape and its words, but may have other marks and other contents of sets,
maps and floats. From the sketch of a form every reader reads what it reads from the form itself, at
the places of the sketch: `readClass_node` and `readEnumeration_node`. There are two exceptions: a
finding can quote a node, and a constant takes its literal from a collection of any kind, so a
sketch tells what it keeps of literals.
-/

namespace Equate

/-- A way to sketch nodes. -/
structure Sketch where
  node : Node → Node
  mark : Mark → Mark
  place : Location → Location
  /-- What is left of a float, a set or a map. -/
  float : Binary64 → Binary64
  items : List Node → List Node
  entries : List (Node × Node) → List (Node × Node)
  /-- What is left of the literal of a constant. -/
  literal : Option (Int64 × Bytes) → Option (Int64 × Bytes)
  node_absent : node .absent = .absent
  node_nil : ∀ m, node (.nil m) = .nil (mark m)
  node_bool : ∀ m b, node (.bool m b) = .bool (mark m) b
  node_int : ∀ m i, node (.int m i) = .int (mark m) i
  node_float : ∀ m x, node (.float m x) = .float (mark m) (float x)
  node_str : ∀ m s, node (.str m s) = .str (mark m) s
  node_keyword : ∀ m k, node (.keyword m k) = .keyword (mark m) k
  node_symbol : ∀ m s, node (.symbol m s) = .symbol (mark m) s
  node_list : ∀ m xs, node (.list m xs) = .list (mark m) (xs.map node)
  node_vector : ∀ m xs, node (.vector m xs) = .vector (mark m) (xs.map node)
  node_set : ∀ m xs, node (.set m xs) = .set (mark m) (items xs)
  node_map : ∀ m es, node (.map m es) = .map (mark m) (entries es)
  location_mark : ∀ m, (mark m).location = place m.location
  place_unknown : place .unknown = .unknown
  literal_none : literal none = none
  literal_node : ∀ n, literal (readLiteral? (node n)) = literal (readLiteral? n)

namespace Sketch

attribute [simp] node_absent node_nil node_bool node_int node_float node_str node_keyword
  node_symbol node_list node_vector node_set node_map location_mark place_unknown literal_none

variable (σ : Sketch)

/-! ## Views -/

@[simp] theorem location_node (n : Node) : (σ.node n).location = σ.place n.location := by
  cases n <;> simp [Node.location, Node.mark?]

@[simp] theorem name_node (n : Node) : (σ.node n).name = n.name := by
  cases n <;> simp [Node.name]

@[simp] theorem keyword?_node (n : Node) : (σ.node n).keyword? = n.keyword? := by
  cases n <;> simp [Node.keyword?]

@[simp] theorem boolean?_node (n : Node) : (σ.node n).boolean? = n.boolean? := by
  cases n <;> simp [Node.boolean?]

@[simp] theorem listItems?_node (n : Node) :
    (σ.node n).listItems? = n.listItems?.map (List.map σ.node) := by
  cases n <;> simp [Node.listItems?]

@[simp] theorem vectorItems?_node (n : Node) :
    (σ.node n).vectorItems? = n.vectorItems?.map (List.map σ.node) := by
  cases n <;> simp [Node.vectorItems?]

@[simp] theorem head_node (n : Node) : (σ.node n).head = n.head := by
  cases n with
  | list m xs =>
    cases xs with
    | nil => simp [Node.head]
    | cons x xs => cases x <;> simp [Node.head]
  | _ => simp [Node.head]

@[simp] theorem arguments_node (n : Node) : (σ.node n).arguments = n.arguments.map σ.node := by
  unfold Node.arguments
  rw [listItems?_node]
  cases n.listItems? <;> simp

/-! ## Types and strategies -/

@[simp] theorem type_node : ∀ n : Node, TypeForm.ofNode? (σ.node n) = TypeForm.ofNode? n
  | .list m xs => by
    match xs with
    | [] => simp [TypeForm.ofNode?]
    | [a] => cases a <;> simp [TypeForm.ofNode?]
    | [a, x] =>
      have ih := type_node x
      cases a <;> simp [TypeForm.ofNode?, ih]
    | a :: b :: c :: rest => cases a <;> simp [TypeForm.ofNode?]
  | .absent | .nil _ | .bool _ _ | .int _ _ | .float _ _ | .str _ _ | .keyword _ _ | .symbol _ _
  | .vector _ _ | .set _ _ | .map _ _ => by simp [TypeForm.ofNode?]

theorem setOption_node (o : StrategyOptions) (head key : Bytes) (value : Node) :
    o.set head key (σ.node value) = o.set head key value := by
  unfold StrategyOptions.set
  rw [boolean?_node]
  cases value <;> simp

theorem readOptions_node (head : Bytes) (o : StrategyOptions) (xs : List Node) :
    o.read head (xs.map σ.node) = o.read head xs := by
  fun_induction StrategyOptions.read head o xs with
  | case1 => rfl
  | case2 o m key value rest o' ho' ih =>
    simp only [List.map_cons, node_keyword, StrategyOptions.read, setOption_node, ho', ih]
  | case3 o m key value rest e he =>
    simp only [List.map_cons, node_keyword, StrategyOptions.read, setOption_node, he]
  | case4 xs o hnil hpair =>
    cases xs with
    | nil => contradiction
    | cons k xs =>
      cases xs with
      | nil => cases k <;> simp [StrategyOptions.read]
      | cons value rest =>
        cases k with
        | keyword m key => exact absurd rfl (hpair m key value rest)
        | _ => simp [StrategyOptions.read]

@[simp] theorem strategy_node (n : Node) : Strategy.ofNode (σ.node n) = Strategy.ofNode n := by
  have harguments := σ.arguments_node n
  unfold Node.arguments at harguments
  unfold Strategy.ofNode
  rw [head_node, harguments, readOptions_node]

/-! ## Findings and clauses -/

/-- The malformation with sketches in place of the nodes that are quoted. -/
def fault : Malformation → Malformation
  | .unknownForm form => .unknownForm (σ.node form)
  | .unknownSetter value => .unknownSetter (σ.node value)
  | .notAMember form => .notAMember (σ.node form)
  | other => other

def finding (f : Finding) : Finding :=
  ⟨σ.fault f.fault, σ.place f.location, f.notes.map (Note.relocate σ.place)⟩

def clause (c : Clause) : Clause := (c.1, σ.node c.2)

theorem readClauses_node (head : Bytes) (xs : List Node) :
    readClauses head (xs.map σ.node) =
      ((readClauses head xs).1.map σ.clause, (readClauses head xs).2.map σ.finding) := by
  fun_induction readClauses head xs with
  | case1 => rfl
  | case2 k key hk => simp [readClauses, hk, finding, fault]
  | case3 k hk => simp [readClauses, hk, finding, fault]
  | case4 k v rest key hk clauses stop heq ih =>
    rw [heq] at ih
    simp [readClauses, hk, ih, clause]
  | case5 k v rest hk => simp [readClauses, hk, finding, fault]

section Clauses

variable (key : Bytes) (clauses : List Clause)

theorem values_clause :
    Clause.values key (clauses.map σ.clause) = (Clause.values key clauses).map σ.node := by
  simp only [Clause.values, List.filter_map, List.map_map]
  rfl

theorem value?_clause :
    Clause.value? key (clauses.map σ.clause) = (Clause.value? key clauses).map σ.node := by
  unfold Clause.value?
  rw [values_clause, List.getLast?_map]
  rcases (Clause.values key clauses).getLast? with _ | v
  · rfl
  · cases v <;> simp

theorem name_clause : Clause.name key (clauses.map σ.clause) = Clause.name key clauses := by
  unfold Clause.name
  rw [value?_clause]
  cases Clause.value? key clauses <;> simp

theorem boolean_clause (default : Bool) :
    Clause.boolean key default (clauses.map σ.clause) = Clause.boolean key default clauses := by
  unfold Clause.boolean
  rw [values_clause, List.filterMap_map]
  have h : Node.boolean? ∘ σ.node = Node.boolean? := funext σ.boolean?_node
  rw [h]

theorem booleanFindings_clause (keys : List Bytes) :
    Clause.booleanFindings keys (clauses.map σ.clause) =
      (Clause.booleanFindings keys clauses).map σ.finding := by
  unfold Clause.booleanFindings
  rw [List.filterMap_map, List.map_filterMap]
  congr 1
  funext c
  simp only [Function.comp_apply, clause, boolean?_node, location_node]
  split <;> rfl

theorem vectorClause_clause :
    vectorClause key (clauses.map σ.clause) =
      ((vectorClause key clauses).1.map σ.finding, (vectorClause key clauses).2.map σ.node) := by
  unfold vectorClause
  rw [value?_clause]
  cases Clause.value? key clauses with
  | none => rfl
  | some v =>
    simp only [Option.map_some, vectorItems?_node, location_node]
    cases v.vectorItems? <;> rfl

end Clauses

theorem readStrategies_node (member : Bytes) (value : Node) :
    PlacedStrategy.readAll member (σ.node value) =
      ((PlacedStrategy.readAll member value).1.map σ.finding,
        (PlacedStrategy.readAll member value).2.map (PlacedStrategy.relocate σ.place)) := by
  have hforms (m m' : Mark) (forms : List Node) :
      PlacedStrategy.readAll member (.vector m' (forms.map σ.node)) =
        ((PlacedStrategy.readAll member (.vector m forms)).1.map σ.finding,
          (PlacedStrategy.readAll member (.vector m forms)).2.map
            (PlacedStrategy.relocate σ.place)) := by
    simp only [PlacedStrategy.readAll, List.filterMap_map, List.map_filterMap, Function.comp_def,
      strategy_node, location_node]
    congr 2 <;> funext form <;> cases Strategy.ofNode form <;> rfl
  cases value with
  | list m xs =>
    have h := hforms m (σ.mark m) [.list m xs]
    rw [List.map_singleton, node_list] at h
    rw [node_list]
    exact h
  | vector m items =>
    rw [node_vector]
    exact hforms m (σ.mark m) items
  | _ => simp [PlacedStrategy.readAll, finding, fault, Node.location, Node.mark?]

/-! ## Members -/

theorem memberClauseFinding?_clause (c : Clause) :
    memberClauseFinding? (σ.clause c) = (memberClauseFinding? c).map σ.finding := by
  unfold memberClauseFinding? clause
  simp only [boolean?_node, name_node, location_node]
  split
  · split <;> rfl
  · split
    · split <;> rfl
    · rfl

theorem readType_clause (form : Node) (kind : MemberKind) (name : Bytes)
    (clauses : List Clause) :
    Member.readType (σ.node form) kind name (clauses.map σ.clause) =
      (Member.readType form kind name clauses).mapError σ.finding := by
  unfold Member.readType
  rw [value?_clause]
  cases Clause.value? "type" clauses with
  | none =>
    simp only [Option.map_none, location_node]
    split <;> rfl
  | some v =>
    simp only [Option.map_some, type_node, location_node]
    cases TypeForm.ofNode? v <;> rfl

theorem readMember_node (position : Nat) (form : Node) :
    Member.read position (σ.node form) =
      ((Member.read position form).1.map σ.finding,
        (Member.read position form).2.map (Member.relocate σ.place)) := by
  have hfaults (clauses : List Clause) :
      (clauses.map σ.clause).filterMap memberClauseFinding? =
        (clauses.filterMap memberClauseFinding?).map σ.finding := by
    rw [List.filterMap_map, List.map_filterMap]
    exact congrArg (List.filterMap · clauses) (funext σ.memberClauseFinding?_clause)
  have hsetter : (fun v => Setter.ofName? v.name) ∘ σ.node = fun v => Setter.ofName? v.name :=
    funext fun v => by rw [Function.comp_apply, name_node]
  have herror (f : Finding) :
      (Except.error f : Except Finding TypeForm).mapError σ.finding = .error (σ.finding f) := rfl
  have hok (type : TypeForm) :
      (Except.ok type : Except Finding TypeForm).mapError σ.finding = .ok type := rfl
  unfold Member.read
  rw [head_node, arguments_node]
  cases MemberKind.ofName? form.head with
  | none => simp [finding, fault]
  | some kind =>
    simp only [readClauses_node]
    rcases readClauses form.head form.arguments with ⟨clauses, stop⟩
    simp only [hfaults, name_clause, readType_clause, location_node]
    split
    · simp [finding, fault]
    · cases Member.readType form kind (Clause.name "name" clauses) clauses with
      | error finding => simp [herror]
      | ok type =>
        simp only [hok, value?_clause, boolean_clause, values_clause,
          List.filterMap_map, hsetter, List.isEmpty_map]
        cases Clause.value? "equality" clauses with
        | none =>
          simp only [Option.map_none]
          split <;> simp [Member.relocate]
        | some v =>
          simp only [Option.map_some, readStrategies_node]
          split <;> simp [Member.relocate]

theorem readMembers_node {seen seen' : Std.TreeMap Bytes Location}
    (hseen : SeenRelocated σ.place seen seen') (position : Nat) (forms : List Node) :
    Member.readAll seen' position (forms.map σ.node) =
      ((Member.readAll seen position forms).1.map σ.finding,
        (Member.readAll seen position forms).2.map (Member.relocate σ.place)) := by
  induction forms generalizing seen seen' position with
  | nil => rfl
  | cons form rest ih =>
    simp only [List.map_cons, Member.readAll, readMember_node]
    rcases Member.read position form with ⟨found, _ | m⟩
    · simp only [Option.map_none, ih hseen, List.map_append]
    · have hname : (m.relocate σ.place).name = m.name := rfl
      have hlocation : (m.relocate σ.place).location = σ.place m.location := rfl
      simp only [Option.map_some, hname, hlocation, hseen m.name]
      cases hm : seen[m.name]? with
      | none =>
        simp only [Option.map_none, List.map_append, List.map_cons,
          ih (hseen.insert m.name m.location)]
      | some first =>
        simp only [Option.map_some, ih hseen, List.map_append, List.map_cons]
        rfl

/-! ## Classes -/

theorem readFunction_node (form : Node) :
    CompanionFunction.read (σ.node form) =
      ((CompanionFunction.read form).1.map σ.finding,
        (CompanionFunction.read form).2.map (CompanionFunction.relocate σ.place)) := by
  unfold CompanionFunction.read
  rw [head_node, arguments_node]
  simp only [readClauses_node, booleanFindings_clause, name_clause, boolean_clause, location_node]
  split
  · split <;> simp [finding, fault, CompanionFunction.relocate]
  · rfl

theorem readBase_clause (clauses : List Clause) :
    ClassBase.read (clauses.map σ.clause) =
      ((ClassBase.read clauses).1.map σ.finding, (ClassBase.read clauses).2) := by
  unfold ClassBase.read
  rw [value?_clause]
  cases Clause.value? "base" clauses with
  | none => rfl
  | some v =>
    simp only [Option.map_some, name_node, location_node]
    split
    · rfl
    · match v with
      | .list m [] => simp [finding, fault, Node.name]
      | .list m [a] => cases a <;> simp [finding, fault, Node.name]
      | .list m [a, x] =>
        cases a with
        | symbol n head =>
          simp only [node_list, List.map_cons, List.map_nil, node_symbol, type_node]
          split
          · cases TypeForm.ofNode? x <;> rfl
          · rfl
        | _ => simp [finding, fault, Node.name]
      | .list m (a :: b :: c :: rest) => cases a <;> simp [finding, fault, Node.name]
      | .str m s | .symbol m s =>
        simp only [node_str, node_symbol]
        split <;> rfl
      | .absent | .nil _ | .bool _ _ | .int _ _ | .float _ _ | .keyword _ _ | .vector _ _
      | .set _ _ | .map _ _ => simp [finding, fault, Node.name]

/-- The reading with sketches in its findings and with the places of the sketch. -/
def reading {α : Type} (relocate : α → α) (r : PartialReading α) : PartialReading α :=
  ⟨r.opening.map σ.finding, r.body.map σ.finding, r.declaration?.map relocate⟩

theorem readClass_node (form : Node) :
    ClassDeclaration.read (σ.node form) =
      σ.reading (ClassDeclaration.relocate σ.place) (ClassDeclaration.read form) := by
  have hmark : (fun a : Node => a.name == utf8 "value-object") ∘ σ.node =
      fun a => a.name == utf8 "value-object" :=
    funext fun a => by rw [Function.comp_apply, name_node]
  have hfunction : CompanionFunction.read ∘ σ.node = fun f =>
      ((CompanionFunction.read f).1.map σ.finding,
        (CompanionFunction.read f).2.map (CompanionFunction.relocate σ.place)) :=
    funext σ.readFunction_node
  unfold ClassDeclaration.read
  rw [arguments_node]
  simp only [readClauses_node]
  rcases readClauses "class" form.arguments with ⟨clauses, stop⟩
  simp only [name_clause, booleanFindings_clause, boolean_clause, location_node]
  split
  · simp [reading, finding, fault]
  · simp only [vectorClause_clause, readBase_clause, σ.readMembers_node .empty, reading,
      List.filter_map, List.map_map, hmark, hfunction, List.getLast?_map, List.map_append]
    simp [List.flatMap_map, List.map_flatMap, List.filterMap_map, Function.comp_def,
      ClassDeclaration.relocate, List.map_filterMap]

/-! ## Enumerations -/

/-- The constant with what is left of its literal. -/
def constant (c : ConstantDeclaration) : ConstantDeclaration :=
  { c with literal? := σ.literal c.literal? }

/-- The enumeration with what is left of its literals. -/
def enumeration (d : EnumDeclaration) : EnumDeclaration :=
  { d with constants := d.constants.map σ.constant }

theorem literal_bind_node (v? : Option Node) :
    σ.literal ((v?.map σ.node).bind readLiteral?) = σ.literal (v?.bind readLiteral?) := by
  cases v? with
  | none => rfl
  | some v => exact σ.literal_node v

theorem readConstant_node (position : Nat) (form : Node) :
    (ConstantDeclaration.read position (σ.node form)).1 =
        (ConstantDeclaration.read position form).1.map σ.finding ∧
      (ConstantDeclaration.read position (σ.node form)).2.map σ.constant =
        (ConstantDeclaration.read position form).2.map fun c =>
          (σ.constant c).relocate σ.place := by
  unfold ConstantDeclaration.read
  rw [head_node, arguments_node]
  simp only [readClauses_node, name_clause, value?_clause, location_node]
  split
  · split
    · simp [finding, fault]
    · refine ⟨rfl, ?_⟩
      simp only [Option.map_some, constant, literal_bind_node]
      rfl
  · exact ⟨rfl, rfl⟩

theorem readConstants_node (position : Nat) (forms : List Node) :
    (ConstantDeclaration.readAll position (forms.map σ.node)).1 =
        (ConstantDeclaration.readAll position forms).1.map σ.finding ∧
      (ConstantDeclaration.readAll position (forms.map σ.node)).2.map σ.constant =
        (ConstantDeclaration.readAll position forms).2.map fun c =>
          (σ.constant c).relocate σ.place := by
  induction forms generalizing position with
  | nil => exact ⟨rfl, rfl⟩
  | cons form rest ih =>
    obtain ⟨hfindings, hconstant⟩ := σ.readConstant_node position form
    -- the next place depends only on whether there is a constant
    have hsome := congrArg Option.isSome hconstant
    rw [Option.isSome_map, Option.isSome_map] at hsome
    obtain ⟨ihfindings, ihconstants⟩ :=
      ih (if (ConstantDeclaration.read position form).2.isSome then position + 1 else position)
    simp only [List.map_cons, ConstantDeclaration.readAll, hsome, hfindings, ihfindings,
      List.map_append, ihconstants, ← Option.toList_map, hconstant, and_self]

theorem readEnumeration_node (form : Node) :
    (EnumDeclaration.read (σ.node form)).opening =
        (EnumDeclaration.read form).opening.map σ.finding ∧
      (EnumDeclaration.read (σ.node form)).body =
        (EnumDeclaration.read form).body.map σ.finding ∧
      (EnumDeclaration.read (σ.node form)).declaration?.map σ.enumeration =
        (EnumDeclaration.read form).declaration?.map fun d =>
          (σ.enumeration d).relocate σ.place := by
  unfold EnumDeclaration.read
  rw [arguments_node]
  simp only [readClauses_node]
  rcases readClauses "enumeration" form.arguments with ⟨clauses, stop⟩
  simp only [name_clause, booleanFindings_clause, boolean_clause, location_node]
  split
  · simp [finding, fault]
  · obtain ⟨hfindings, hconstants⟩ :=
      σ.readConstants_node 0 (vectorClause "constants" clauses).2
    simp only [vectorClause_clause, hfindings, List.map_append, Option.map_some, enumeration,
      hconstants, EnumDeclaration.relocate, List.map_map, true_and]
    rfl

end Sketch

end Equate
