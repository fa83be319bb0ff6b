import Std.Data.TreeMap
import Equate.Declaration.Basic
import Equate.Declaration.Clause
/-!
# Reading declarations

A declaration is read from a form together with the findings about everything in it that could not
be used. A form that is left out always leaves a finding.
-/

namespace Equate

/-! ## Members -/

/-- The strategies given for a member: one form, or a vector of forms. -/
def PlacedStrategy.readAll (member : Bytes) (value : Node) : List Finding × List PlacedStrategy :=
  let forms? := match value with
    | .list _ _ => some [value]
    | .vector _ items => some items
    | _ => none
  match forms? with
  | none => ([⟨.invalidEquality member, value.location, []⟩], [])
  | some forms =>
    (forms.filterMap fun form =>
      match Strategy.ofNode form with
      | .ok _ => none
      | .error fault => some ⟨.invalidStrategy fault, form.location, []⟩,
    forms.filterMap fun form =>
      match Strategy.ofNode form with
      | .ok strategy => some ⟨strategy, form.location⟩
      | .error _ => none)

/-- A clause of a member whose value cannot be used; it costs the member its place. -/
def memberClauseFinding? (clause : Clause) : Option Finding :=
  let (key, v) := clause
  if [utf8 "readonly", utf8 "computed", utf8 "static"].contains key then
    if v.boolean?.isNone then some ⟨.notABoolean key, v.location, []⟩ else none
  else if key = utf8 "setter" then
    if (Setter.ofName? v.name).isNone then some ⟨.unknownSetter v, v.location, []⟩ else none
  else none

/-- The type of a member. Only a method can do without. -/
def Member.readType (form : Node) (kind : MemberKind) (name : Bytes) (clauses : List Clause) :
    Except Finding TypeForm :=
  match Clause.value? "type" clauses with
  | some v =>
    match TypeForm.ofNode? v with
    | some type => .ok type
    | none => .error ⟨.invalidType name, v.location, []⟩
  | none =>
    if kind = .method then .ok (.named [])
    else .error ⟨.missingType kind.name name, form.location, []⟩

/-- Reads a member that would stand at `position`. -/
def Member.read (position : Nat) (form : Node) : List Finding × Option Member :=
  match MemberKind.ofName? form.head with
  | none => ([⟨.notAMember form, form.location, []⟩], none)
  | some kind =>
    let (clauses, stop) := readClauses form.head form.arguments
    let faults := clauses.filterMap memberClauseFinding?
    let name := Clause.name "name" clauses
    if name.isEmpty then
      (faults ++ stop ++ [⟨.missingMemberName kind.name, form.location, []⟩], none)
    else
      match Member.readType form kind name clauses with
      | .error finding => (faults ++ stop ++ [finding], none)
      | .ok type =>
        let (findings, strategies) :=
          match Clause.value? "equality" clauses with
          | some v => PlacedStrategy.readAll name v
          | none => ([], [])
        let member : Member :=
          { name, kind, type, position, strategies
            readonly := Clause.boolean "readonly" false clauses
            computed := Clause.boolean "computed" false clauses
            isStatic := Clause.boolean "static" false clauses
            setter := ((Clause.values "setter" clauses).filterMap fun v =>
              Setter.ofName? v.name).getLast?.getD .none
            location := form.location }
        (faults ++ stop ++ findings, if faults.isEmpty then some member else none)

/-- Reads members that would stand at `position` and behind; `seen` gives the places of the members
already accepted. Of two members with one name the first stays. -/
def Member.readAll (seen : Std.TreeMap Bytes Location) (position : Nat) :
    List Node → List Finding × List Member
  | [] => ([], [])
  | form :: rest =>
    let (found, member?) := Member.read position form
    match member? with
    | none =>
      let (findings, members) := Member.readAll seen position rest
      (found ++ findings, members)
    | some m =>
      match seen[m.name]? with
      | some first =>
        let duplicate : Finding := ⟨.duplicateMember m.name, m.location,
          [⟨"first declared here", first⟩]⟩
        let (findings, members) := Member.readAll seen position rest
        (found ++ duplicate :: findings, members)
      | none =>
        let (findings, members) :=
          Member.readAll (seen.insert m.name m.location) (position + 1) rest
        (found ++ findings, m :: members)

/-! ## Classes -/

/-- Reads a function of a class. -/
def CompanionFunction.read (form : Node) : List Finding × Option CompanionFunction :=
  if form.head = utf8 "fn" then
    let (clauses, stop) := readClauses "fn" form.arguments
    let findings := Clause.booleanFindings ["static"] clauses ++ stop
    let name := Clause.name "name" clauses
    if name.isEmpty then (findings ++ [⟨.missingFunctionName, form.location, []⟩], none)
    else (findings, some ⟨name, Clause.boolean "static" true clauses, form.location⟩)
  else ([⟨.notAFunction, form.location, []⟩], none)

/-- The items of the vector that is given for a key, if one is given. -/
def vectorClause (key : Bytes) (clauses : List Clause) : List Finding × List Node :=
  match Clause.value? key clauses with
  | none => ([], [])
  | some v =>
    match v.vectorItems? with
    | some items => ([], items)
    | none => ([⟨.notAVector key, v.location, []⟩], [])

/-- What a class derives from. A base with another name is of no concern. -/
def ClassBase.read (clauses : List Clause) : List Finding × ClassBase :=
  match Clause.value? "base" clauses with
  | none => ([], .other)
  | some v =>
    if v.name = utf8 "value-object" then ([], .valueObject)
    else
      match v with
      | .list _ [.symbol _ head, x] =>
        if head = utf8 "wrapper" then
          match TypeForm.ofNode? x with
          | some wrapped => ([], .wrapper wrapped)
          | none => ([⟨.invalidWrappedType, v.location, []⟩], .other)
        else ([⟨.invalidBase, v.location, []⟩], .other)
      | _ => if v.name.isEmpty then ([⟨.invalidBase, v.location, []⟩], .other) else ([], .other)

/-- A declaration as far as it could be read. The findings of `opening` were made before its name
was known, those of `body` after. -/
structure PartialReading (α : Type) where
  opening : List Finding
  body : List Finding
  declaration? : Option α

/-- Reads a class. -/
def ClassDeclaration.read (form : Node) : PartialReading ClassDeclaration :=
  let (clauses, stop) := readClauses "class" form.arguments
  let opening := Clause.booleanFindings ["partial"] clauses ++ stop
  let name := Clause.name "name" clauses
  if name.isEmpty then ⟨opening ++ [⟨.missingClassName, form.location, []⟩], [], none⟩
  else
    let (attributeFindings, attributes) := vectorClause "attrs" clauses
    let marks := attributes.filter fun a => a.name == utf8 "value-object"
    let (baseFindings, base) := ClassBase.read clauses
    let (vectorFindings, memberForms) := vectorClause "members" clauses
    let (memberFindings, members) := Member.readAll {} 0 memberForms
    let (functionVectorFindings, functionForms) := vectorClause "functions" clauses
    let functions := functionForms.map CompanionFunction.read
    { opening
      body := attributeFindings ++ baseFindings ++ vectorFindings ++ memberFindings ++
        functionVectorFindings ++ functions.flatMap Prod.fst
      declaration? := some
        { name, base, members
          ns := Clause.name "namespace" clauses
          extensible := Clause.boolean "partial" false clauses
          marker? := marks.getLast?.map Node.location
          functions := functions.filterMap Prod.snd
          location := form.location } }

/-! ## Enumerations -/

/-- The value and the name of a constant, if the arguments are an integer and a string. -/
def readLiteral? (arguments : Node) : Option (Int64 × Bytes) :=
  match arguments.elements? with
  | some [.int _ value, .str _ name] => some (value, name)
  | _ => none

/-- Reads a constant that would stand at `position`. -/
def ConstantDeclaration.read (position : Nat) (form : Node) :
    List Finding × Option ConstantDeclaration :=
  if form.head = utf8 "constant" then
    let (clauses, stop) := readClauses "constant" form.arguments
    let constant := Clause.name "name" clauses
    if constant.isEmpty then (stop ++ [⟨.missingConstantName, form.location, []⟩], none)
    else
      let literal? := (Clause.value? "args" clauses).bind readLiteral?
      (stop, some { constant, literal?, position, location := form.location })
  else ([⟨.notAConstant, form.location, []⟩], none)

/-- Reads constants that would stand at `position` and behind. -/
def ConstantDeclaration.readAll (position : Nat) :
    List Node → List Finding × List ConstantDeclaration
  | [] => ([], [])
  | form :: rest =>
    let (found, constant?) := ConstantDeclaration.read position form
    let next := if constant?.isSome then position + 1 else position
    let (findings, constants) := ConstantDeclaration.readAll next rest
    (found ++ findings, constant?.toList ++ constants)

/-- Reads an enumeration. -/
def EnumDeclaration.read (form : Node) : PartialReading EnumDeclaration :=
  let (clauses, stop) := readClauses "enumeration" form.arguments
  let opening := Clause.booleanFindings ["partial"] clauses ++ stop
  let name := Clause.name "name" clauses
  if name.isEmpty then ⟨opening ++ [⟨.missingEnumerationName, form.location, []⟩], [], none⟩
  else
    let (vectorFindings, constantForms) := vectorClause "constants" clauses
    let (constantFindings, constants) := ConstantDeclaration.readAll 0 constantForms
    { opening
      body := vectorFindings ++ constantFindings
      declaration? := some
        { name, constants
          ns := Clause.name "namespace" clauses
          extensible := Clause.boolean "partial" false clauses
          location := form.location } }

/-! ## Forms -/

/-- What a form was read as. `name` is the declaration that later diagnostics are about. -/
structure Reading where
  name : Bytes
  diagnostics : List Diagnostic
  declaration? : Option Declaration

namespace Reading

/-- The diagnostics of a reading: the opening findings are reported for the reporter's own
declaration, the others for the one that was read. -/
def ofPartial {α : Type} (rep : Reporter) (qualifiedName : α → Bytes) (wrap : α → Declaration)
    (r : PartialReading α) : Reading :=
  let opening := r.opening.map (Finding.diagnostic rep)
  match r.declaration? with
  | none => ⟨rep.declaration, opening, none⟩
  | some d =>
    let named := { rep with declaration := qualifiedName d }
    ⟨named.declaration, opening ++ r.body.map (Finding.diagnostic named), some (wrap d)⟩

def report (c : Reading) : Report := .ofList c.diagnostics

end Reading

/-- Reads a declaration form. -/
def Declaration.read (rep : Reporter) (form : Node) : Reading :=
  if form.head = utf8 "class" then
    .ofPartial rep ClassDeclaration.qualifiedName .classDeclaration (ClassDeclaration.read form)
  else if form.head = utf8 "enumeration" then
    .ofPartial rep EnumDeclaration.qualifiedName .enumeration (EnumDeclaration.read form)
  else
    let fault := match form with
      | .absent => Malformation.emptyForm
      | _ => .unknownForm form
    ⟨rep.declaration, [Finding.diagnostic rep ⟨fault, form.location, []⟩], none⟩

/-- The declaration forms of a module. -/
def moduleDeclarations (rep : Reporter) (m : Node) : List Diagnostic × List Node :=
  if m.head = utf8 "module" then ([], m.arguments)
  else ([Finding.diagnostic rep ⟨.notAModule, m.location, []⟩], [])

end Equate
